import Retouch.Fixer.Build
import Retouch.Proofs.Maps
import Retouch.Proofs.Standing

/-!
# Which imports are found

The search for an import from a package goes through lines of simple statements and through blocks, but
not through all of them (`blocks`), and stops at a loop over the name (`Loops`).  What it finds is
an import that it can reach, or such a loop (`bindingAmong_some`); where it finds nothing, and no loop over
the name is on the way, there is no import to reach (`bindingAmong_none`).
-/

namespace Retouch.Query

open List Language.Symbol

variable {α : Type} {t b u s : Tree α} {ts us : List (Tree α)} {name p : Text}

/-! ## The statements below a statement -/

def afterColons : List (Tree α) → List (Tree α)
  | t :: u :: ts => (if t.kind = Kind.colon ∧ t.isText ":" then [u] else []) ++ afterColons (u :: ts)
  | _ => []

/-- The blocks of a statement: all of them, or only those that are looked into. -/
def blocks (all : Bool) (t : Tree α) : List (Tree α) :=
  if t.kind = forStmt ∨ t.kind = ifStmt ∨ t.kind = whileStmt then
    if all then afterColons t.children else t.children.getLast?.toList
  else if t.kind = tryStmt then
    if all then afterColons t.children
    else t.children[2]?.toList ++ afterColons (t.children.drop 3)
  else []

def below (all : Bool) (t : Tree α) : List (Tree α) :=
  if t.kind = simpleStmt then t.children else (blocks all t).flatMap blockOf

def Reaches (all : Bool) (ts : List (Tree α)) (s : Tree α) : Prop :=
  ∃ t ∈ ts, Relation.ReflTransGen (fun a b => b ∈ below all a) t s

def Imports (name package : Text) (t : Tree α) : Prop := importBinds t name (some package) = .ok true

def Loops (name : Text) (t : Tree α) : Prop := loopBinds name t = .ok true

variable {all : Bool}

theorem reaches_of_mem (h : t ∈ ts) : Reaches all ts t := ⟨t, h, .refl⟩

theorem Reaches.of_below (h : Reaches all us s) (mem : t ∈ ts) (sub : us ⊆ below all t) :
    Reaches all ts s := by
  obtain ⟨u, hu, way⟩ := h
  exact ⟨t, mem, .head (sub hu) way⟩

theorem Reaches.mono (h : Reaches all us s) (sub : us ⊆ ts) : Reaches all ts s :=
  h.imp fun _ => .imp_left fun hu => sub hu

theorem reaches_cons :
    Reaches all (t :: ts) s ↔ s = t ∨ Reaches all (below all t) s ∨ Reaches all ts s := by
  constructor
  · rintro ⟨u, hu, way⟩
    rcases mem_cons.1 hu with rfl | hu
    · rcases way.cases_head with same | ⟨v, hv, way⟩
      · exact .inl same.symm
      · exact .inr (.inl ⟨v, hv, way⟩)
    · exact .inr (.inr ⟨u, hu, way⟩)
  · rintro (rfl | h | h)
    · exact reaches_of_mem mem_cons_self
    · exact h.of_below mem_cons_self fun _ => id
    · exact h.mono (subset_cons_self ..)

/-- If all blocks are looked into, nothing is missed. -/
theorem reaches_iff (all : ∀ s, Reaches true ts s → blocks false s = blocks true s) :
    Reaches false ts s ↔ Reaches true ts s := by
  have same {a : Tree α} (h : Reaches true ts a) : below false a = below true a := by
    rw [below, below, all a h]
  constructor
  · rintro ⟨t, ht, way⟩
    induction way with
    | refl => exact reaches_of_mem ht
    | tail _ step ih => exact ih.imp fun _ => .imp_right fun way => way.tail (same ih ▸ step)
  · rintro ⟨t, ht, way⟩
    induction way with
    | refl => exact reaches_of_mem ht
    | tail before step ih =>
      exact ih.imp fun _ => .imp_right fun way => way.tail (same ⟨t, ht, before⟩ ▸ step)

theorem blocksAfterColons_eq (h : blocksAfterColons ts = .ok us) : us = afterColons ts := by
  induction ts generalizing us with
  | nil => cases h; rfl
  | cons t ts ih =>
    cases ts with
    | nil =>
      unfold blocksAfterColons at h
      split at h <;> cases h
      rfl
    | cons u ts =>
      obtain ⟨_, found, eq⟩ := bind_eq_ok.1 h
      cases eq
      rw [afterColons, ← ih found]
      split <;> rfl

theorem lt_of_mem_children (h : u ∈ t.children) : (Tree.nodesAll (blockOf u)).length < t.nodes.length := by
  have inner : (Tree.nodesAll (blockOf u)).length ≤ u.nodes.length := by
    unfold blockOf
    split
    · cases u <;> simp [Tree.nodes, Tree.children, Tree.nodesAll]
    · simp [Tree.nodesAll]
  have outer : u.nodes.length < t.nodes.length := by
    cases t with
    | leaf i l => cases h
    | node i k cs =>
      obtain ⟨l, r, rfl⟩ := append_of_mem h
      simp only [Tree.nodes, Tree.nodesAll_append, Tree.nodesAll, length_cons, length_append]
      omega
  omega

theorem length_nodes (t : Tree α) : t.nodes.length = (Tree.nodesAll t.children).length + 1 := by
  cases t <;> rfl

theorem afterColons_subset (ts : List (Tree α)) : afterColons ts ⊆ ts := by
  fun_induction afterColons ts with
  | case1 t u ts ih =>
    refine append_subset.2 ⟨?_, fun _ h => mem_cons_of_mem _ (ih h)⟩
    split <;> simp
  | case2 => exact nil_subset _

/-! ## One statement -/

variable {package : Option Text} {among among' : List (Tree α) → Attempt (Option (Tree α))}

/-- Computations agree if they agree where their first step succeeds. -/
theorem bind_congr_ok {ε β γ : Type} {x : Except ε β} {g g' : β → Except ε γ}
    (same : ∀ b, x = .ok b → g b = g' b) : (x >>= g) = (x >>= g') := by
  cases x with
  | error e => rfl
  | ok b => exact same b rfl

theorem eq_some_of_orFault {β : Type} {o : Option β} {b : β} {e : Fault}
    (h : (orFault e o : Attempt β) = .ok b) : o = some b := by
  cases o <;> cases h
  rfl

theorem lastOf_congr {β γ : Type} {ask ask' : β → Attempt (Option γ)} {bs : List β}
    (same : ∀ b ∈ bs, ask b = ask' b) : lastOf ask bs = lastOf ask' bs := by
  induction bs with
  | nil => rfl
  | cons b bs ih =>
    rw [lastOf, lastOf, same b mem_cons_self, ih fun c hc => same c (mem_cons_of_mem _ hc)]

/-- What is found in or below a statement depends on what is found in smaller lists of statements. -/
theorem bindingBelow_congr
    (same : ∀ us, (Tree.nodesAll us).length < t.nodes.length → among us = among' us) :
    bindingBelow name package among t = bindingBelow name package among' t := by
  have inBlock {u : Tree α} (hu : u ∈ t.children) := same _ (lt_of_mem_children hu)
  unfold bindingBelow
  split
  · exact bind_congr_ok fun u last => inBlock (mem_of_getLast? (eq_some_of_orFault last))
  · split
    · refine bind_congr_ok fun u first => ?_
      beta_reduce
      rw [inBlock (mem_of_getElem? (eq_some_of_orFault first))]
      refine bind_congr_ok fun _ _ => ?_
      split
      · rfl
      · refine bind_congr_ok fun bs later => lastOf_congr fun b hb => inBlock ?_
        rw [blocksAfterColons_eq later] at hb
        exact mem_of_mem_drop (afterColons_subset _ hb)
    · rw [same _ (by rw [length_nodes]; exact Nat.lt_succ_self _)]

/-- The answer to a question about several trees is the answer about one of them, if there is any. -/
theorem lastOf_eq_ok {β γ : Type} {ask : β → Attempt (Option γ)} {bs : List β} {r : Option γ}
    (h : lastOf ask bs = .ok r) :
    (r = none → ∀ b ∈ bs, ask b = .ok none) ∧ ∀ c, r = some c → ∃ b ∈ bs, ask b = .ok (some c) := by
  induction bs generalizing r with
  | nil =>
    cases h
    exact ⟨fun _ => nofun, nofun⟩
  | cons b bs ih =>
    obtain ⟨_, asked, h⟩ := bind_eq_ok.1 h
    obtain ⟨later, askedLater, h⟩ := bind_eq_ok.1 h
    obtain ⟨none, some⟩ := ih askedLater
    cases later with
    | none =>
      cases h
      exact ⟨fun h => forall_mem_cons.2 ⟨h ▸ asked, none rfl⟩,
        fun c h => ⟨b, mem_cons_self, h ▸ asked⟩⟩
    | some d =>
      cases h
      refine ⟨nofun, fun c h => ?_⟩
      obtain ⟨b', hb', eq⟩ := some c h
      exact ⟨b', mem_cons_of_mem _ hb', eq⟩

theorem not_imports (h : isImport t = false) : ¬ Imports name p t := by
  intro found
  unfold Imports importBinds at found
  have kinds : t.kind ≠ importName ∧ t.kind ≠ importFrom := by simpa [isImport] using h
  simp only [kinds.1, kinds.2] at found
  cases found

/-- The lists of statements that are searched below a statement, and what is found in them. -/
structure SearchedIn (among : List (Tree α) → Attempt (Option (Tree α))) (t : Tree α)
    (r : Option (Tree α)) (lists : List (List (Tree α))) : Prop where
  below : below false t = lists.flatten
  smaller : ∀ us ∈ lists, (Tree.nodesAll us).length < t.nodes.length
  none : r = none → ∀ us ∈ lists, among us = .ok none
  some : ∀ b, r = some b → ∃ us ∈ lists, among us = .ok (some b)

variable {r : Option (Tree α)}

theorem SearchedIn.subset {lists : List (List (Tree α))}
    (h : SearchedIn among t r lists) (mem : us ∈ lists) : us ⊆ Query.below false t := by
  rw [h.below]
  exact fun x hx => mem_flatten.2 ⟨us, mem, hx⟩

theorem searchedIn_single (eq : below false t = us) (found : among us = .ok r)
    (smaller : (Tree.nodesAll us).length < t.nodes.length) : SearchedIn among t r [us] where
  below := by rw [eq, flatten_singleton]
  smaller := by simpa using smaller
  none h := by simpa [h] using found
  some b h := ⟨us, mem_singleton_self _, h ▸ found⟩

/-- What is found in or below a statement: the statement itself or nothing if nothing is below it, and
otherwise what is found in the lists of statements below it. -/
theorem bindingBelow_cases (h : bindingBelow name (some p) among t = .ok r) :
    below false t = [] ∧
        (r = none ∧ ¬ Imports name p t ∨ r = some t ∧ (Imports name p t ∨ isImport t = false)) ∨
      isImport t = false ∧ ∃ lists, SearchedIn among t r lists := by
  unfold bindingBelow at h
  split at h
  · rename_i kinds
    obtain ⟨u, last, found⟩ := bind_eq_ok.1 h
    have plain : t.kind ≠ simpleStmt ∧ isImport t = false := by
      rcases kinds with k | k | k <;> rw [isImport, k] <;> decide
    refine .inr ⟨plain.2, _, searchedIn_single ?_ found ?_⟩
    · rw [below, if_neg plain.1, blocks, if_pos kinds, eq_some_of_orFault last]
      exact flatMap_singleton ..
    · exact lt_of_mem_children (mem_of_getLast? (eq_some_of_orFault last))
  rename_i kinds
  split at h
  · rename_i kind
    obtain ⟨u, first, h⟩ := bind_eq_ok.1 h
    obtain ⟨here, asked, h⟩ := bind_eq_ok.1 h
    refine .inr ⟨by rw [isImport, kind]; rfl,
      (u :: afterColons (t.children.drop 3)).map blockOf, ?_, ?_, ?_, ?_⟩
    · rw [below, if_neg (by rw [kind]; decide), blocks, if_neg kinds, if_pos kind, eq_some_of_orFault first]
      rfl
    · refine forall_mem_map.2 fun v hv => lt_of_mem_children ?_
      rcases mem_cons.1 hv with rfl | hv
      · exact mem_of_getElem? (eq_some_of_orFault first)
      · exact mem_of_mem_drop (afterColons_subset _ hv)
    · rintro rfl
      cases here with
      | some c => cases h
      | none =>
        obtain ⟨bs, later, h⟩ := bind_eq_ok.1 h
        rw [← blocksAfterColons_eq later]
        exact forall_mem_map.2 (forall_mem_cons.2 ⟨asked, (lastOf_eq_ok h).1 rfl⟩)
    · rintro b rfl
      cases here with
      | some c =>
        cases h
        exact ⟨_, mem_map_of_mem mem_cons_self, asked⟩
      | none =>
        obtain ⟨bs, later, h⟩ := bind_eq_ok.1 h
        rw [← blocksAfterColons_eq later]
        obtain ⟨v, hv, asked⟩ := (lastOf_eq_ok h).2 b rfl
        exact ⟨_, mem_map_of_mem (mem_cons_of_mem _ hv), asked⟩
  rename_i kind
  obtain ⟨defines, found, h⟩ := bind_eq_ok.1 h
  have plain : defines = true → isImport t = false ∧ t.kind ≠ simpleStmt := by
    rintro rfl
    unfold definitionBinds at found
    split at found
    · rename_i k
      rcases k with k | k <;> rw [isImport, k] <;> decide
    · cases found
  by_cases line : t.kind = simpleStmt
  · have other : isImport t = false := by rw [isImport, line]; rfl
    cases defines with
    | true => exact absurd line (plain rfl).2
    | false =>
      obtain ⟨imports, found, h⟩ := bind_eq_ok.1 h
      cases imports with
      | true => exact absurd found (not_imports other)
      | false =>
        refine .inr ⟨other, _, searchedIn_single (by rw [below, if_pos line]) (by simpa [line] using h) ?_⟩
        exact lt_of_lt_of_eq (Nat.lt_succ_self _) (length_nodes t).symm
  · refine .inl ⟨by rw [below, if_neg line, blocks, if_neg kinds, if_neg kind]; rfl, ?_⟩
    cases defines with
    | true =>
      cases h
      exact .inr ⟨rfl, .inr (plain rfl).1⟩
    | false =>
      obtain ⟨imports, found, h⟩ := bind_eq_ok.1 h
      cases imports with
      | true =>
        cases h
        exact .inr ⟨rfl, .inl found⟩
      | false =>
        have no : ¬ Imports name p t := fun yes => nomatch found.symm.trans yes
        simp only [line] at h
        obtain ⟨assigns, found, h⟩ := bind_eq_ok.1 h
        cases assigns with
        | false =>
          cases h
          exact .inl ⟨rfl, no⟩
        | true =>
          cases h
          refine .inr ⟨rfl, .inr ?_⟩
          unfold assignmentBinds at found
          split at found
          · rename_i k
            rw [isImport, k]
            rfl
          · cases found

/-! ## Lists of statements -/

variable {fuel : Nat}

/-- With a package, what is found is an import that is reached, or a loop over the name. -/
theorem bindingAmong_some (given : p ≠ []) (h : bindingAmong name (some p) fuel ts = .ok (some b)) :
    Loops name b ∧ b ∈ ts ∨ isImport b = true ∧ Imports name p b ∧ Reaches false ts b := by
  induction fuel generalizing ts with
  | zero => cases h
  | succ fuel ih =>
    cases ts with
    | nil => cases h
    | cons t ts =>
      obtain ⟨loops, loop, h⟩ := bind_eq_ok.1 h
      cases loops with
      | true =>
        cases h
        exact .inl ⟨loop, mem_cons_self⟩
      | false =>
        obtain ⟨r, found, h⟩ := bind_eq_ok.1 h
        have later (h : bindingAmong name (some p) fuel ts = .ok (some b)) : Loops name b ∧ b ∈ t :: ts ∨
            isImport b = true ∧ Imports name p b ∧ Reaches false (t :: ts) b :=
          (ih h).imp (.imp_right (mem_cons_of_mem _)) fun ⟨imported, imports, way⟩ =>
            ⟨imported, imports, way.mono (subset_cons_self ..)⟩
        cases r with
        | none => exact later h
        | some c =>
          dsimp only at h
          split at h
          · rename_i kept
            cases h
            have imported : isImport b = true := by simpa [given] using kept
            refine .inr ⟨imported, ?_⟩
            rcases bindingBelow_cases found with ⟨-, ⟨⟨⟩, -⟩ | ⟨eq, imports⟩⟩ | ⟨-, _, searched⟩
            · cases eq
              exact ⟨imports.resolve_right (by simp [imported]), reaches_of_mem mem_cons_self⟩
            · obtain ⟨us, hus, found⟩ := searched.some b rfl
              rcases ih found with ⟨loop, -⟩ | ⟨-, imports, way⟩
              · unfold Loops loopBinds at loop
                split at loop
                · rename_i k
                  rw [isImport, k] at imported
                  cases imported
                · cases loop
              · exact ⟨imports, way.of_below mem_cons_self (searched.subset hus)⟩
          · exact later h

/-- A search with the step it takes at the first statement. -/
theorem bindingAmong_none_cons (h : bindingAmong name package (fuel + 1) (t :: ts) = .ok none) :
    loopBinds name t = .ok false ∧ bindingAmong name package fuel ts = .ok none ∧
      ∃ r, bindingBelow name package (bindingAmong name package fuel) t = .ok r ∧
        ∀ b, r = some b → isImport b = false ∧ package ≠ none ∧ package ≠ some [] := by
  obtain ⟨loops, loop, h⟩ := bind_eq_ok.1 h
  cases loops with
  | true => cases h
  | false =>
    refine ⟨loop, ?_⟩
    obtain ⟨r, found, h⟩ := bind_eq_ok.1 h
    cases r with
    | none => exact ⟨h, none, found, nofun⟩
    | some b =>
      dsimp only at h
      split at h
      · cases h
      · rename_i skipped
        simp only [not_or, Bool.not_eq_true] at skipped
        refine ⟨h, some b, found, ?_⟩
        rintro _ ⟨⟩
        exact ⟨skipped.2.2, skipped.1, skipped.2.1⟩

/-- Where nothing is found, no loop over the name was passed. -/
theorem not_loops_of_none (enough : (Tree.nodesAll ts).length < fuel)
    (h : bindingAmong name package fuel ts = .ok none) : ∀ t ∈ ts, ¬ Loops name t := by
  induction fuel generalizing ts with
  | zero => cases enough
  | succ fuel ih =>
    cases ts with
    | nil => nofun
    | cons t ts =>
      obtain ⟨loop, later, -⟩ := bindingAmong_none_cons h
      have pos := length_pos_of_mem t.self_mem_nodes
      rw [Tree.nodesAll, length_append] at enough
      refine forall_mem_cons.2 ⟨fun loops => (nomatch loop.symm.trans loops), ih ?_ later⟩
      omega

/-- Where nothing is found and no loop over the name is reached, no import is. -/
theorem bindingAmong_none (given : p ≠ []) (enough : (Tree.nodesAll ts).length < fuel)
    (calm : ∀ s, Reaches false ts s → ¬ Loops name s)
    (h : bindingAmong name (some p) fuel ts = .ok none) : ∀ s, Reaches false ts s → ¬ Imports name p s := by
  induction fuel generalizing ts with
  | zero => cases enough
  | succ fuel ih =>
    cases ts with
    | nil =>
      rintro s ⟨u, hu, -⟩
      cases hu
    | cons t ts =>
      obtain ⟨-, later, r, found, skipped⟩ := bindingAmong_none_cons h
      have pos := length_pos_of_mem t.self_mem_nodes
      rw [Tree.nodesAll, length_append] at enough
      have rest := ih (by omega) (fun s way => calm s (way.mono (subset_cons_self ..))) later
      intro s way
      rcases bindingBelow_cases found with ⟨empty, no⟩ | ⟨other, lists, searched⟩
      · rcases reaches_cons.1 way with rfl | ⟨u, hu, -⟩ | way
        · rcases no with ⟨-, no⟩ | ⟨rfl, -⟩
          · exact no
          · exact not_imports (skipped _ rfl).1
        · rw [empty] at hu
          cases hu
        · exact rest s way
      · rcases reaches_cons.1 way with rfl | ⟨u, hu, way⟩ | way
        · exact not_imports other
        · rw [searched.below] at hu
          obtain ⟨us, hus, hu⟩ := mem_flatten.1 hu
          have small := searched.smaller us hus
          have calmBelow : ∀ us ∈ lists, ∀ s, Reaches false us s → ¬ Loops name s :=
            fun us hus s way => calm s (way.of_below mem_cons_self (searched.subset hus))
          refine ih (by omega) (calmBelow us hus) ?_ s ⟨u, hu, way⟩
          cases r with
          | none => exact searched.none rfl us hus
          | some b =>
            -- What was found below is no import, so it is a loop, and there is none.
            obtain ⟨vs, hvs, found⟩ := searched.some b rfl
            rcases bindingAmong_some given found with ⟨loop, mem⟩ | ⟨imported, -⟩
            · exact absurd loop (calmBelow vs hvs b (reaches_of_mem mem))
            · rw [(skipped b rfl).1] at imported
              cases imported
        · exact rest s way

/-- A longer search finds nothing else. -/
theorem bindingAmong_of_le {fuel' : Nat} (enough : (Tree.nodesAll ts).length < fuel) (le : fuel ≤ fuel') :
    bindingAmong name package fuel' ts = bindingAmong name package fuel ts := by
  induction fuel generalizing ts fuel' with
  | zero => cases enough
  | succ fuel ih =>
    obtain ⟨fuel', rfl⟩ := Nat.exists_eq_add_of_le' (Nat.lt_of_lt_of_le (Nat.succ_pos _) le)
    cases ts with
    | nil => rfl
    | cons t ts =>
      have pos := length_pos_of_mem t.self_mem_nodes
      rw [Tree.nodesAll, length_append] at enough
      have later : bindingAmong name package fuel' ts = _ := ih (by omega) (Nat.le_of_succ_le_succ le)
      rw [bindingAmong, bindingBelow_congr fun us _ => ih (by omega) (Nat.le_of_succ_le_succ le), later,
        bindingAmong]

end Retouch.Query

namespace Retouch.Build

open List Query Language.Symbol

variable {f g : Forest} {i root : NodeId} {package : Option Text} {p name : Text} {found : Bool}

theorem programOf_eq_ok : programOf i f = .ok root g ↔
    g = f ∧ (i :: f.ancestors i).find? (fun n => f.kind n == fileInput) = some root := by
  simp only [programOf, bind, EStateM.bind, get_ok]
  cases (i :: f.ancestors i).find? fun n => f.kind n == fileInput with
  | none => exact ⟨nofun, fun h => nomatch h.2⟩
  | some n =>
    refine ⟨fun h => ?_, fun h => ?_⟩
    · cases h
      exact ⟨rfl, rfl⟩
    · cases h.1
      cases h.2
      rfl

theorem isImported_eq_ok : isImported package name i f = .ok found g ↔
    ∃ root b, programOf i f = .ok root g ∧ binding name (g.view root) package = .ok b ∧
      b.isSome = found := by
  simp only [isImported, bind, EStateM.bind]
  cases h : programOf i f with
  | error e f' => exact ⟨nofun, fun ⟨_, _, h, _⟩ => nomatch h⟩
  | ok root f' =>
    simp only [get_ok]
    cases b : binding name (f'.view root) package with
    | error e =>
      refine ⟨nofun, ?_⟩
      rintro ⟨_, _, ⟨⟩, h, _⟩
      exact nomatch b.symm.trans h
    | ok b' =>
      refine ⟨fun h => ?_, ?_⟩
      · cases h
        exact ⟨root, b', rfl, b, rfl⟩
      · rintro ⟨_, _, ⟨⟩, h, rfl⟩
        cases b.symm.trans h
        rfl

/-- **With a package, what counts as imported is exactly what the search reaches**, but for loops over the
name: such a loop among the statements of the program counts as an import.  Where no such loop is on
the way, an import has to be reached, and if all blocks on the way are looked into, any import in a
block is. -/
theorem isImported_exact (given : p ≠ []) (answer : isImported (some p) name i f = .ok found g) :
    ∃ root ∈ i :: f.ancestors i, f.kind root = fileInput ∧ g = f ∧
      let program := (f.view root).children
      (found = true → (∃ t ∈ program, Loops name t) ∨ ∃ s, Reaches false program s ∧ Imports name p s) ∧
      ((∃ t ∈ program, Loops name t) → found = true) ∧
      ((∀ s, Reaches false program s → ¬ Loops name s) →
        (found = true ↔ ∃ s, Reaches false program s ∧ Imports name p s) ∧
        ((∀ s, Reaches true program s → blocks false s = blocks true s) →
          (found = true ↔ ∃ s, Reaches true program s ∧ Imports name p s))) := by
  obtain ⟨root, b, above, searched, isSome⟩ := isImported_eq_ok.1 answer
  obtain ⟨rfl, first⟩ := programOf_eq_ok.1 above
  have enough : (Tree.nodesAll (g.view root).children).length < (g.view root).nodes.length + 2 := by
    rw [length_nodes]
    omega
  refine ⟨root, mem_of_find?_eq_some first, by simpa using find?_some first, rfl, ?_⟩
  have sound : found = true → (∃ t ∈ (g.view root).children, Loops name t) ∨
      ∃ s, Reaches false (g.view root).children s ∧ Imports name p s := by
    rintro rfl
    obtain ⟨c, rfl⟩ := Option.isSome_iff_exists.1 isSome
    exact (bindingAmong_some given searched).imp (fun h => ⟨c, h.2, h.1⟩) fun h => ⟨c, h.2.2, h.2.1⟩
  have missed (h : found ≠ true) : bindingAmong name (some p) ((g.view root).nodes.length + 2)
      (g.view root).children = .ok none := by
    cases b with
    | none => exact searched
    | some c => exact absurd isSome.symm h
  refine ⟨sound, fun ⟨t, ht, loops⟩ => ?_, fun calm => ?_⟩
  · by_contra h
    exact not_loops_of_none enough (missed h) t ht loops
  · have exact : found = true ↔ ∃ s, Reaches false (g.view root).children s ∧ Imports name p s := by
      refine ⟨fun h => (sound h).resolve_left fun ⟨t, ht, loops⟩ => ?_, fun ⟨s, way, imports⟩ => ?_⟩
      · exact calm t (reaches_of_mem ht) loops
      · by_contra h
        exact bindingAmong_none given enough calm (missed h) s way imports
    refine ⟨exact, fun all => exact.trans (exists_congr fun s => and_congr_left fun _ => ?_)⟩
    exact reaches_iff all

/-- A program of one statement, which has two blocks: the import of `x` from `p`, and a name. -/
def sampleBlocks (kind : Kind) (name : Text) : Forest :=
  let word (w : Text) : SyntaxTree := .leaf () (.ofText Kind.name w)
  let colon : SyntaxTree := .leaf () (.ofText Kind.colon [':'])
  (Forest.ofTree (.node () fileInput [.node () kind [word [], word name, colon,
    .node () importFrom [word [], word ['p'], word [], word ['x']], colon, word []]])).2

theorem isImported_exact_loop :
    let f := sampleBlocks forStmt ['x']
    ['p'] ≠ [] ∧ isImported (some ['p']) ['x'] 0 f = .ok true f ∧
      ∃ root, f.kind root = fileInput ∧
        ((∃ t ∈ (f.view root).children, Loops ['x'] t) ∨
          ∃ s, Reaches false (f.view root).children s ∧ Imports ['x'] ['p'] s) := by
  have run : isImported (some ['p']) ['x'] 0 (sampleBlocks forStmt ['x']) = .ok true _ := rfl
  refine ⟨by decide, run, ?_⟩
  obtain ⟨root, -, kind, -, sound, -⟩ := isImported_exact (by decide) run
  exact ⟨root, kind, sound rfl⟩

/-- An import in a block before the last one is not found. -/
theorem isImported_misses :
    let f := sampleBlocks ifStmt []
    isImported (some ['p']) ['x'] 0 f = .ok false f ∧
      ∃ s, Reaches true (f.view 0).children s ∧ Imports ['x'] ['p'] s := by
  intro f
  refine ⟨rfl, f.view 5, ⟨f.view 1, ?_, .single ?_⟩, rfl⟩
  · decide +kernel
  · decide +kernel

end Retouch.Build
