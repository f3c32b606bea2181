import Mathlib.Data.List.Basic
import Retouch.Fixes.TupleParameters
import Retouch.Proofs.Maps

/-!
# Places in tuple parameters

A name in a tuple parameter stands for the part of the argument to which the places of the tuples around
it lead (`Parameter.pathsFrom`).  Of these the index of a parameter keeps the last two, so that it leads
to the right part exactly if the name is in no more than two tuples (`Parameter.index_selects`).
-/

namespace Retouch.Fixes

open List OrderedMap

namespace Parameter

mutual
/-- The names of a parameter at a place, each with the places that lead to it. -/
def paths (n : Nat) : Parameter → OrderedMap Text (List Nat)
  | .named x => [(x, [n])]
  | .tuple ps => (pathsFrom 0 ps).map fun e => (e.1, n :: e.2)

/-- The names of parameters from a place on, each with the places that lead to it. -/
def pathsFrom (n : Nat) : List Parameter → OrderedMap Text (List Nat)
  | [] => []
  | p :: ps => paths n p ++ pathsFrom (n + 1) ps
end

/-- An argument: a value, or a tuple of arguments. -/
inductive Argument where
  | value (n : Nat)
  | tuple (parts : List Argument)

/-- The part of an argument at some places, from the outermost to the innermost. -/
def Argument.select : List Nat → Argument → Option Argument
  | [], a => some a
  | _ :: _, .value _ => none
  | n :: ns, .tuple as => as[n]?.bind (select ns)

/-- What is kept of the places that lead to a name. -/
def lastTwo (path : List Nat) : List Nat := path.drop (path.length - 2)

/-- What is kept of places below others. -/
def kept (above path : List Nat) : List Nat := if path.length = 1 then above ++ path else lastTwo path

theorem kept_cons {n : Nat} {path above : List Nat} (some : path ≠ []) :
    kept above (n :: path) = kept [n] path := by
  match path with
  | [m] => rfl
  | a :: b :: path => simp [kept, lastTwo]

mutual
theorem paths_ne_nil (n : Nat) (p : Parameter) : ∀ e ∈ paths n p, e.2 ≠ [] := by
  cases p with
  | named x => exact forall_mem_singleton.2 (cons_ne_nil n [])
  | tuple ps => exact forall_mem_map.2 fun e _ => cons_ne_nil n e.2

theorem pathsFrom_ne_nil (n : Nat) (ps : List Parameter) : ∀ e ∈ pathsFrom n ps, e.2 ≠ [] := by
  cases ps with
  | nil => simp [pathsFrom]
  | cons p ps =>
    rw [pathsFrom, forall_mem_append]
    exact ⟨paths_ne_nil n p, pathsFrom_ne_nil (n + 1) ps⟩
end

def keptAll (above : List Nat) (es : OrderedMap Text (List Nat)) : OrderedMap Text (List Nat) :=
  es.map fun e => (e.1, kept above e.2)

mutual
theorem places_eq (above : List Nat) (n : Nat) (found : OrderedMap Text (List Nat)) (p : Parameter) :
    places above n found p = update found (keptAll above (paths n p)) := by
  cases p with
  | named x => rfl
  | tuple ps =>
    rw [places, placesIn_eq, paths, keptAll, keptAll, map_map]
    congr 1
    refine map_congr_left fun e he => ?_
    exact congrArg (Prod.mk e.1) (kept_cons (pathsFrom_ne_nil 0 ps e he)).symm

theorem placesIn_eq (above : List Nat) (n : Nat) (found : OrderedMap Text (List Nat))
    (ps : List Parameter) :
    placesIn above n found ps = update found (keptAll above (pathsFrom n ps)) := by
  cases ps with
  | nil => rfl
  | cons p ps =>
    rw [placesIn, placesIn_eq, places_eq, pathsFrom, keptAll, keptAll, keptAll, map_append, update,
      update, update, foldl_append]
end

theorem keys_keptAll (above : List Nat) (es : OrderedMap Text (List Nat)) :
    keys (keptAll above es) = keys es := by
  simp [OrderedMap.keys, keptAll]

variable {ps : List Parameter} {x : Text} {path : List Nat}

theorem get?_index (distinct : (keys (pathsFrom 0 ps)).Nodup) (h : (x, path) ∈ pathsFrom 0 ps) :
    get? (index (.tuple ps)) x = some (lastTwo path) := by
  rw [index, placesIn_eq, nil_update (by rwa [keys_keptAll])]
  have same : kept [] path = lastTwo path := by
    rw [kept]
    split
    · rename_i one
      rw [lastTwo, one]
      rfl
    · rfl
  exact get?_of_mem (by rwa [keys_keptAll]) (mem_map.2 ⟨_, h, by rw [same]⟩)

theorem lastTwo_of_le (h : path.length ≤ 2) : lastTwo path = path := by
  rw [lastTwo, Nat.sub_eq_zero_of_le h]
  rfl

/-- An argument that has the value 0 where the places lead, and no tuples beside the way. -/
def Argument.along : List Nat → Argument
  | [] => .value 0
  | n :: ns => .tuple (replicate n (.value 1) ++ [along ns])

namespace Argument

theorem select_along (path : List Nat) : select path (along path) = some (.value 0) := by
  induction path with
  | nil => rfl
  | cons n path ih => simpa [along, select] using ih

theorem select_cons_along {n i : Nat} {path ns : List Nat} {a : Argument}
    (h : select (i :: path) (along (n :: ns)) = some a) :
    select path (.value 1) = some a ∨ select path (along ns) = some a := by
  obtain ⟨b, found, h⟩ := Option.bind_eq_some_iff.1 h
  rcases mem_append.1 (mem_of_getElem? found) with old | last
  · exact .inl (eq_of_mem_replicate old ▸ h)
  · exact .inr (mem_singleton.1 last ▸ h)

/-- The last two of more places lead elsewhere. -/
theorem select_lastTwo_along {path : List Nat} (long : 2 < path.length) :
    select (lastTwo path) (along path) ≠ some (.value 0) := by
  intro h
  obtain ⟨i, j, last⟩ := length_eq_two.1 (show (lastTwo path).length = 2 by simp [lastTwo]; omega)
  rw [last] at h
  match path with
  | n :: m :: k :: path =>
    rcases select_cons_along h with none | h
    · cases none
    · rcases select_cons_along h with one | more
      · cases one
      · cases more

end Argument

/-- **Places of names.**  Where the names of a tuple parameter are pairwise different, the index has for
each of them the last two of the places that lead to it.  These lead to the same part of every argument
exactly if there are no more than two. -/
theorem index_selects (distinct : (keys (pathsFrom 0 ps)).Nodup) (h : (x, path) ∈ pathsFrom 0 ps) :
    get? (index (.tuple ps)) x = some (lastTwo path) ∧
      ((∀ a, Argument.select (lastTwo path) a = a.select path) ↔ path.length ≤ 2) := by
  refine ⟨get?_index distinct h, fun same => ?_, fun short a => by rw [lastTwo_of_le short]⟩
  by_contra long
  refine Argument.select_lastTwo_along (Nat.lt_of_not_le long) ?_
  rw [same, Argument.select_along]

/-- In `(a, ((b, c), d))` the name `d` has the right places. -/
theorem index_selects_two : let ps : List Parameter := [.named ['a'], .tuple [.tuple [.named ['b'],
      .named ['c']], .named ['d']]]
    get? (index (.tuple ps)) ['d'] = some [1, 1] ∧
      ∀ a, Argument.select (lastTwo [1, 1]) a = a.select [1, 1] := by
  intro ps
  have mem : (['d'], [1, 1]) ∈ pathsFrom 0 ps := by decide
  have both := index_selects (by decide) mem
  exact ⟨both.1, both.2.2 (by decide)⟩

/-- There `c` stands at the places 1, 0 and 1, of which the first is lost. -/
theorem index_misses : let ps : List Parameter := [.named ['a'], .tuple [.tuple [.named ['b'],
      .named ['c']], .named ['d']]]
    (['c'], [1, 0, 1]) ∈ pathsFrom 0 ps ∧ get? (index (.tuple ps)) ['c'] = some [0, 1] := by
  decide

end Parameter

end Retouch.Fixes
