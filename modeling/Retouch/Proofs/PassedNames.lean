import Retouch.Fault
import Retouch.Proofs.Maps
import Retouch.Proofs.Matching

/-!
# Names put into a map

A match can be passed a map for the names that it binds.  Patterns for the children of a node are
passed one map after the other, and what was put into it stays there if a later child does not fit;
this map is the node's own, and it is only merged into the map from outside when all children fit
(`Pattern.matchInto`).  So a match that is passed a map says what the match without one says, and the
map is changed only by a match that says yes (`Pattern.matchInto_eq`).  Together with what the ways of
patterns find this says all that a match does (`Pattern.seqWays_exact`).
-/

namespace Retouch

open OrderedMap

variable {α : Type}

/-- What a verdict answers to a match that was passed a map, with the map afterwards. -/
def Verdict.into (names : Option (Bindings α)) : Verdict α → Attempt (Bool × Option (Bindings α))
  | .yes r => .ok (true, names.map (update · r))
  | .no => .ok (false, names)
  | .fail => .error .wrongForm

namespace Pattern

open Matches

/-! ## Matches that are passed a map -/

/-- A wild pattern puts in what a way to take all trees binds, and then its own name. -/
def wildInto (p : Pattern) (ts : List (Tree α)) (names : Option (Bindings α)) :
    Attempt (Bool × Option (Bindings α)) :=
  match (p.ways ts).exactly ts.length with
  | .yes r => .ok (true, names.map fun m => Bindings.bind p.name (.many ts) (update m r))
  | .no => .ok (false, names)
  | .fail => .error .wrongForm

def ownMap (names : Option (Bindings α)) : Option (Bindings α) := names.map fun _ => []

/-- The map with what a node has put into its own one, and the name of the node. -/
def withOwn (n : Option Text) (t : Tree α) (own names : Option (Bindings α)) : Option (Bindings α) :=
  names.map fun m => Bindings.bind n (.one t) (update m (own.getD []))

/-- The answer of a node, given the answer of the patterns for its children. -/
def afterChildren (n : Option Text) (t : Tree α) (names : Option (Bindings α)) :
    Attempt (Bool × Option (Bindings α)) → Attempt (Bool × Option (Bindings α))
  | .ok (true, own) => .ok (true, withOwn n t own names)
  | .ok (false, _) => .ok (false, names)
  | .error e => .error e

mutual
def matchInto : Pattern → Tree α → Option (Bindings α) → Attempt (Bool × Option (Bindings α))
  | leaf k v n, t, names =>
    .ok (if leafFits k v t then (true, names.map (Bindings.bind n (.one t))) else (false, names))
  | tree k n, t, names =>
    .ok (if kindFits k t then (true, names.map (Bindings.bind n (.one t))) else (false, names))
  | within k ps n, t, names =>
    if kindFits k t then
      afterChildren n t names (if ps.any isWild then
          ((seqWays ps t.children).exactly t.children.length).into (ownMap names)
        else eachInto ps t.children (ownMap names))
    else .ok (false, names)
  | anything min max n, t, names => wildInto (anything min max n) [t] names
  | choice os min max n, t, names => wildInto (choice os min max n) [t] names
  | finish _, _, names | without _ _, _, names =>
    if names.isSome then .error .wrongForm else .ok (false, names)

/-- Matches of trees by patterns one by one, all of which are passed the same map. -/
def eachInto : List Pattern → List (Tree α) → Option (Bindings α) →
    Attempt (Bool × Option (Bindings α))
  | [], [], names => .ok (true, names)
  | p :: ps, t :: ts, names =>
    if ps.length ≠ ts.length then .ok (false, names)
    else if p.isNegated then .error .wrongForm
    else
      match matchInto p t names with
      | .ok (true, names) => eachInto ps ts names
      | answer => answer
  | _, _, names => .ok (false, names)
end

def matchSeqInto (p : Pattern) (ts : List (Tree α)) (names : Option (Bindings α)) :
    Attempt (Bool × Option (Bindings α)) :=
  if p.isNegated then
    if names.isSome then .error .wrongForm else .ok (ts.isEmpty, names)
  else if p.isWild then wildInto p ts names
  else
    match ts with
    | [t] => matchInto p t names
    | _ => .ok (false, names)

/-! ## No name is listed twice -/

def Once (r : Bindings α) : Prop := (keys r).Nodup

theorem once_nil : Once ([] : Bindings α) := List.nodup_nil

theorem Once.bind {m : Bindings α} (h : Once m) (n : Option Text) (b : Bound α) :
    Once (Bindings.bind n b m) := by
  unfold Bindings.bind
  split
  · exact h
  · exact h
  · exact nodup_keys_insert h _ b


def Fits (ts : List (Tree α)) (c : Nat) (r : Bindings α) : Prop := c ≤ ts.length ∧ Once r

theorem takeFrom_fits (n : Option Text) {ts : List (Tree α)} {count extra : Nat}
    (le : count + extra ≤ ts.length) : (takeFrom n ts count extra).All (Fits ts) := by
  induction extra generalizing count with
  | zero => exact all_only ⟨le, once_nil.bind n _⟩
  | succ extra ih => exact all_found.2 ⟨⟨by omega, once_nil.bind n _⟩, ih (by omega)⟩

theorem firstTree_fits (fits : Tree α → Bool) (n : Option Text) (ts : List (Tree α)) :
    (firstTree fits n ts).All (Fits ts) := by
  cases ts with
  | nil => exact all_done
  | cons t ts =>
    rw [firstTree]
    split
    · exact all_only ⟨Nat.succ_pos _, once_nil.bind n _⟩
    · exact all_done

variable {r : Bindings α}

theorem takeGreedily_fits {fits : Tree α → Verdict α} {count : Nat} {names : Bindings α}
    (h : Once names) {ts : List (Tree α)} {c : Nat}
    (hr : takeGreedily fits count names ts = (.yes r, c)) : c ≤ count + ts.length ∧ Once r := by
  induction ts generalizing count names with
  | nil =>
    cases hr
    exact ⟨Nat.le_refl _, h⟩
  | cons t ts ih =>
    rw [takeGreedily] at hr
    rw [List.length_cons]
    split at hr
    · obtain ⟨le, once⟩ := ih (nodup_keys_update h _) hr
      exact ⟨by omega, once⟩
    · cases hr
      exact ⟨Nat.le_add_right _ _, h⟩
    · cases hr

mutual
theorem ways_fits (p : Pattern) (ts : List (Tree α)) : (ways p ts).All (Fits ts) := by
  cases p with
  | leaf k v n | tree k n =>
    exact firstTree_fits _ n ts
  | within k ps n =>
    cases ts with
    | nil =>
      exact all_done
    | cons t ts =>
      rw [ways]
      have named : ∀ {v : Verdict α}, (∀ r, v = .yes r → Once r) →
          (ofVerdict 1 (nameTree n t v)).All (Fits (t :: ts)) := by
        intro v once
        cases v with
        | no => exact all_done
        | fail => exact all_fail
        | yes r => exact all_only ⟨Nat.succ_pos _, (once r rfl).bind n _⟩
      split
      · split
        · exact named fun r verdict => ((seqWays_fits ps t.children).of_exactly verdict).2
        · exact named fun r verdict => eachTakesOne_once ps t.children verdict
      · exact all_done
  | anything min max n =>
    rw [ways]
    split
    · rename_i low
      refine takeFrom_fits n ?_
      rw [Nat.add_sub_cancel' low]
      exact Nat.min_le_left _ _
    · exact all_done
  | choice os min max n =>
    rw [ways]
    split
    · split
      · rename_i greedily
        obtain ⟨le, once⟩ := takeGreedily_fits once_nil greedily
        exact all_only ⟨by omega, once.bind n _⟩
      · exact all_done
      · exact all_fail
    · have more : ∀ (us : List (Tree α)) (c d : Nat) (r s : Bindings α), Fits us c r →
          Fits (us.drop c) d s → Fits us (c + d) (update r s) := by
        rintro us c d r s ⟨le, once⟩ ⟨le', -⟩
        rw [List.length_drop] at le'
        exact ⟨by omega, nodup_keys_update once s⟩
      have none : ∀ us : List (Tree α), Fits us 0 [] := fun us => ⟨Nat.zero_le _, once_nil⟩
      refine .map (P := Fits ts) (.recover ?_ ?_) fun c r h => ⟨h.1, h.2.bind n _⟩
      · exact turns_all none more (optionWays_fits os) min max _ 0 ts
      · exact gradualTurns_all none more (optionWays_fits os) min max ts
  | finish n =>
    rw [ways]
    split
    · exact all_only ⟨Nat.zero_le _, once_nil⟩
    · exact all_done
  | without p n =>
    rw [ways]
    split
    · exact all_done
    · exact all_fail
    · exact all_only ⟨Nat.zero_le _, once_nil⟩

theorem seqWays_fits (ps : List Pattern) (ts : List (Tree α)) : (seqWays ps ts).All (Fits ts) := by
  cases ps with
  | nil =>
    exact all_only ⟨Nat.zero_le _, once_nil⟩
  | cons p ps =>
    rw [seqWays]
    split
    · exact ways_fits p ts
    · refine (ways_fits p ts).bind fun c r h => (seqWays_fits ps (ts.drop c)).map fun d s h' => ?_
      have inside := h'.1
      rw [List.length_drop] at inside
      exact ⟨show c + d ≤ ts.length by have := h.1; omega, nodup_keys_update h.2 s⟩

theorem optionWays_fits (os : List (List Pattern)) (ts : List (Tree α)) :
    (optionWays os ts).All (Fits ts) := by
  cases os with
  | nil =>
    exact all_done
  | cons o os =>
    exact (seqWays_fits o ts).append (optionWays_fits os ts)

theorem eachTakesOne_once (ps : List Pattern) (ts : List (Tree α)) {r : Bindings α}
    (h : eachTakesOne ps ts = .yes r) : Once r := by
  cases ps with
  | nil =>
    cases ts with
    | nil =>
      cases h
      exact once_nil
    | cons t ts => simp [eachTakesOne] at h
  | cons p ps =>
    cases ts with
    | nil => simp [eachTakesOne] at h
    | cons t ts =>
      rw [eachTakesOne] at h
      split at h
      · cases h
      · split at h
        · cases h
        · cases verdict : (ways p [t]).exactly 1 with
          | no | fail =>
            rw [verdict] at h
            cases h
          | yes r' =>
            rw [verdict] at h
            cases verdicts : eachTakesOne ps ts with
            | no | fail =>
              rw [verdicts] at h
              cases h
            | yes s =>
              rw [verdicts] at h
              cases h
              exact nodup_keys_update ((ways_fits p [t]).of_exactly verdict).2 s
end

/-! ## A match with a map and one without -/

theorem bind_bind (n : Option Text) (b : Bound α) (r : Bindings α) :
    Bindings.bind n b (Bindings.bind n b r) = Bindings.bind n b r := by
  match n with
  | none | some [] => rfl
  | some (c :: cs) => exact insert_insert r (c :: cs) b b

theorem bind_name_of_ways {p : Pattern} (wild : p.isWild = true) (ts : List (Tree α)) :
    (ways p ts).All fun c r => Bindings.bind p.name (.many (ts.take c)) r = r := by
  cases p with
  | leaf | tree | within | finish | without => cases wild
  | anything min max n =>
    have counts : ∀ count extra, (takeFrom n ts count extra).All
        fun c r => .bind n (.many (ts.take c)) r = r := by
      intro count extra
      induction extra generalizing count with
      | zero => exact all_only (bind_bind n _ [])
      | succ extra ih => exact all_found.2 ⟨bind_bind n _ [], ih (count + 1)⟩
    rw [ways]
    split
    · exact counts min _
    · exact all_done
  | choice os min max n =>
    rw [ways]
    split
    · split
      · exact all_only (bind_bind n _ _)
      · exact all_done
      · exact all_fail
    · exact .map (P := fun _ _ => True) (fun _ _ _ => trivial) fun c r _ => bind_bind n _ r

theorem update_bind {m : Bindings α} (once : Once r) (n : Option Text) (b : Bound α) :
    update m (Bindings.bind n b r) = Bindings.bind n b (update m r) := by
  unfold Bindings.bind
  split
  · rfl
  · rfl
  · exact update_insert once _ b

theorem wildInto_eq {p : Pattern} (wild : p.isWild = true) (ts : List (Tree α))
    (names : Option (Bindings α)) :
    wildInto p ts names = ((ways p ts).exactly ts.length).into names := by
  unfold wildInto
  cases verdict : (ways p ts).exactly ts.length with
  | no | fail => rfl
  | yes r =>
    have bound := (bind_name_of_ways wild ts).of_exactly verdict
    have once := ((ways_fits p ts).of_exactly verdict).2
    rw [List.take_length] at bound
    refine congrArg (fun f => Except.ok (true, Option.map f names)) (funext fun m => ?_)
    rw [← update_bind once, bound]

theorem exactly_ofVerdict (v : Verdict α) : (ofVerdict 1 v).exactly 1 = v := by
  cases v <;> rfl

theorem withOwn_eq (once : Once r) (n : Option Text) (t : Tree α) (names : Option (Bindings α)) :
    withOwn n t ((ownMap names).map (update · r)) names =
      names.map (update · (Bindings.bind n (.one t) r)) := by
  cases names with
  | none => rfl
  | some m =>
    refine congrArg some ?_
    show Bindings.bind n _ (update m (update [] r)) =
      update m (Bindings.bind n _ r)
    rw [update_bind once, ← update_update once_nil]
    rfl

/-- The answer is that of the verdict, up to what is left in the map after a no. -/
def Follows (names : Option (Bindings α)) (answer : Attempt (Bool × Option (Bindings α))) :
    Verdict α → Prop
  | .no => ∃ left, answer = .ok (false, left)
  | v => answer = v.into names

theorem follows_into (names : Option (Bindings α)) (v : Verdict α) : Follows names (v.into names) v := by
  cases v with
  | no => exact ⟨names, rfl⟩
  | yes | fail => rfl

theorem afterChildren_eq {names : Option (Bindings α)} {answer : Attempt (Bool × Option (Bindings α))}
    {v : Verdict α} (follows : Follows (ownMap names) answer v) (once : ∀ r, v = .yes r → Once r)
    (n : Option Text) (t : Tree α) : afterChildren n t names answer = (nameTree n t v).into names := by
  cases v with
  | no =>
    obtain ⟨_, rfl⟩ := follows
    rfl
  | fail =>
    cases follows
    rfl
  | yes r =>
    cases follows
    exact congrArg (fun m => Except.ok (true, m)) (withOwn_eq (once r rfl) n t names)

mutual
theorem matchInto_of_positive (p : Pattern) (positive : p.isNegated = false) (t : Tree α)
    (names : Option (Bindings α)) :
    matchInto p t names = ((ways p [t]).exactly 1).into names := by
  cases p with
  | leaf k v n | tree k n =>
    rw [matchInto, ways, firstTree]
    split <;> cases n with
    | none => cases names <;> rfl
    | some n => cases n <;> cases names <;> rfl
  | within k ps n =>
    rw [matchInto, ways]
    split
    · rw [exactly_ofVerdict]
      refine afterChildren_eq ?_ ?_ n t
      · split
        · exact follows_into _ _
        · exact eachInto_follows ps t.children (ownMap names)
      · split
        · exact fun r verdict => ((seqWays_fits ps t.children).of_exactly verdict).2
        · exact fun r => eachTakesOne_once ps t.children
    · rfl
  | anything min max n | choice os min max n =>
    exact wildInto_eq rfl [t] names
  | finish | without => cases positive

theorem eachInto_follows (ps : List Pattern) (ts : List (Tree α)) (names : Option (Bindings α)) :
    Follows names (eachInto ps ts names) (eachTakesOne ps ts) := by
  cases ps with
  | nil =>
    cases ts with
    | nil =>
      cases names <;> rfl
    | cons t ts =>
      exact ⟨names, rfl⟩
  | cons p ps =>
    cases ts with
    | nil =>
      exact ⟨names, rfl⟩
    | cons t ts =>
      rw [eachInto, eachTakesOne]
      split
      · exact ⟨names, rfl⟩
      · split
        · rfl
        · rename_i positive
          rw [matchInto_of_positive p (Bool.eq_false_iff.2 positive) t names]
          cases verdict : (ways p [t]).exactly 1 with
          | no => exact ⟨names, rfl⟩
          | fail => rfl
          | yes r =>
            have once := ((ways_fits p [t]).of_exactly verdict).2
            have later := eachInto_follows ps ts (names.map (update · r))
            cases verdicts : eachTakesOne ps ts with
            | no | fail =>
              rwa [verdicts] at later
            | yes s =>
              rw [verdicts] at later
              refine trans later ?_
              cases names with
              | none => rfl
              | some m =>
                exact congrArg (fun m => Except.ok (true, some m)) (update_update once s)
end

/-- **A match that is passed a map follows the match without one.** -/
theorem matchInto_eq (p : Pattern) (t : Tree α) (names : Option (Bindings α)) :
    p.matchInto t names = (p.matchTree t names.isSome).into names := by
  unfold matchTree
  split
  · rename_i negated
    cases p with
    | leaf | tree | within | anything | choice => cases negated
    | finish | without =>
      cases names <;> rfl
  · rename_i positive
    exact matchInto_of_positive p (Bool.eq_false_iff.2 positive) t names

theorem matchSeqInto_eq (p : Pattern) (ts : List (Tree α)) (names : Option (Bindings α)) :
    p.matchSeqInto ts names = (p.matchTrees ts names.isSome).into names := by
  unfold matchSeqInto matchTrees
  split
  · cases names with
    | none => cases ts <;> rfl
    | some m => rfl
  · rename_i positive
    split
    · rename_i wild
      exact wildInto_eq wild ts names
    · match ts with
      | [] => rfl
      | [t] => exact matchInto_of_positive p (Bool.eq_false_iff.2 positive) t names
      | _ :: _ :: _ => rfl

theorem into_none (v : Verdict α) (names : Bindings α) :
    v.into none = (v.into (some names)).map (fun answer => (answer.1, none)) ∧
      ∀ after, v.into (some names) = .ok (false, after) → after = some names := by
  cases v with
  | no => exact ⟨rfl, fun after h => by cases h; rfl⟩
  | yes | fail => exact ⟨rfl, nofun⟩

def namesAndNumber : List Pattern :=
  [choice [[leaf (some Kind.name) none none]] 0 unbounded (some "names".toList),
    leaf (some Kind.number) none none]

def valueLeaf (kind : Kind) (value : Text) : SyntaxTree := .leaf () (.ofText kind value)

end Pattern

end Retouch
