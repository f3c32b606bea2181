import Retouch.Fixer.Basic

/-!
# Calls

Fixers for calls of functions that got another name, moved to a module, or gave way to another form
of call.
-/

namespace Retouch.Fixes

open Build Language.Symbol
open Retouch.Forest (clone setLead newNode childAt)

def bareClone (i : NodeId) : Edit NodeId := do
  let c ← clone i
  setLead c []
  return c

/-- A fixer that gives another name to what its pattern calls `name`. -/
def givesName (title pattern new : Text) : Fixer :=
  .ofPattern title pattern fun _ m => do
    rename (← m.one "name") new
    return .keep

/-! ## Functions with another name -/

/-- `buffer(…)` becomes `memoryview(…)`. -/
def buffer : Fixer := (givesName "buffer" "
  power< name='buffer' trailer< '(' [any] ')' > any* >" "memoryview").onRequest

/-- `raw_input(…)` becomes `input(…)`. -/
def rawInput : Fixer := givesName "raw_input" "
  power< name='raw_input' trailer< '(' [any] ')' > any* >" "input"

/-- `os.getcwdu()` becomes `os.getcwd()`. -/
def getcwdu : Fixer := givesName "getcwdu" "
  power< 'os' trailer< dot='.' name='getcwdu' > any* >" "getcwd"

/-! ## Functions that moved -/

/-- `callable(f)` becomes `isinstance(f, collections.Callable)`, and `collections` is imported. -/
def callable : Fixer := .ofPattern "callable" "
  power< 'callable' trailer< lpar='(' ( not(arglist | argument<any '=' any>) func=any |
    func=arglist<(not argument<any '=' any>) any ','> ) rpar=')' > after=any* >" fun i m => do
  let subject ← m.one "func"
  touchImport none "collections" i
  let args := [← clone subject, ← string ", "] ++
    (← member (← name "collections") (← name "Callable"))
  return .put (← call (← name "isinstance") args (some (← leadOf i)))

/-- `intern(s)` becomes `sys.intern(s)`, and `sys` is imported. -/
def intern : Fixer := .ofPattern "intern" "
  power< 'intern' trailer< lpar='(' ( not(arglist | argument<any '=' any>) obj=any |
    obj=arglist<(not argument<any '=' any>) any ','> ) rpar=')' > after=any* >" fun i m => do
  let subject ← m.one "obj"
  let args ← if (← kindOf subject) = arglist then clone subject
    else newNode arglist [← clone subject]
  let after ← cloneAll (m.many "after")
  let brackets ← newNode trailer
    [← clone (← m.one "lpar"), args, ← clone (← m.one "rpar")]
  let new ← newNode power
    ((← member (← name "sys") (← name "intern")) ++ [brackets] ++ after)
  setLead new (← leadOf i)
  touchImport none "sys" i
  return .put new

/-- Where `reduce` is used it is imported from `functools`. -/
def reduce : Fixer := Fixer.onRequest <| .ofPattern "reduce" "
  power< 'reduce' trailer< '(' arglist< ( (not(argument<any '=' any>) any ',' not(argument<any
    '=' any>) any) | (not(argument<any '=' any>) any ',' not(argument<any '=' any>) any ','
    not(argument<any '=' any>) any) ) > ')' > >" fun i _ => do
  touchImport (some "functools") "reduce" i
  return .keep

/-- `operator.isCallable(f)` becomes `hasattr(f, '__call__')`, and `operator.sequenceIncludes`
becomes `operator.contains`.  Without the module before them there is only a warning. -/
def operator : Fixer := .ofPattern "operator" "
  power< module='operator' trailer< '.' method=('isCallable'|'sequenceIncludes') > trailer< '('
    func=any ')' > >
  | power< method=('isCallable'|'sequenceIncludes') trailer< '(' func=any ')' > >" fun i m => do
  let method ← m.first "method"
  if (← Forest.valueOf method).is "sequenceIncludes" then
    if m.has "module" then
      Forest.setValue method "contains"
      Forest.touch method
    else Fixer.warn i "You should use operator.contains here."
    return .keep
  else if m.has "module" then
    let args := [← clone (← m.one "func"), ← string ", ", ← string "'__call__'"]
    return .put (← call (← name "hasattr") args (some (← leadOf i)))
  else
    let subject ← Forest.valueOf (← m.one "func")
    Fixer.warn i ("You should use hasattr(" ++ subject.shown ++ ", '__call__') here.")
    return .keep

/-! ## Other forms of calls -/

def needsBrackets (i : NodeId) : Edit Bool := do
  let k ← kindOf i
  if k = Kind.name ∨ k = atom then return false
  if k ≠ power then return true
  return (← kindOf (← childAt i (-2))) == Kind.doubleStar

/-- `apply(f, args, keywords)` becomes `f(*args, **keywords)`. -/
def apply : Fixer := .ofPattern "apply" "
  power< 'apply' trailer< '(' arglist< (not argument<NAME '=' any>) func=any ',' (not
    argument<NAME '=' any>) args=any [',' (not argument<NAME '=' any>) kwds=any] [','] > ')' > >" fun i m => do
  let lead ← leadOf i
  let copy ← clone (← m.one "func")
  let function ← if ← needsBrackets copy then parenthesize copy else pure copy
  setLead function []
  let args ← bareClone (← m.one "args")
  let positional := [← leaf Kind.star "*" [], args]
  let keywords ← match m.one? "kwds" with
    | none => pure []
    | some k => do
      let k ← bareClone k
      pure [← comma, ← leaf Kind.doubleStar "**" " ", k]
  return .put (← call function (positional ++ keywords) (some lead))

def furtherArgument (m : Captures) (what : Text) : Edit (List NodeId) := do
  match m.one? what with
  | none => return []
  | some i => return [← comma, ← clone i]

/-- `exec code in globals, locals` becomes `exec(code, globals, locals)`. -/
def exec : Fixer := .ofPattern "exec" "
  exec_stmt< 'exec' a=any 'in' b=any [',' c=any] >
  | exec_stmt< 'exec' (not atom<'(' [any] ')'>) a=any >" fun i m => do
  let code ← bareClone (← m.one "a")
  let args := [code] ++ (← furtherArgument m "b") ++ (← furtherArgument m "c")
  return .put (← call (← name "exec") args (some (← leadOf i)))

/-- `execfile(file, globals, locals)` becomes a call of `exec` on what is read from the file and
compiled under its name. -/
def execfile : Fixer := .ofPattern "execfile" "
  power< 'execfile' trailer< '(' arglist< filename=any [',' globals=any [',' locals=any ] ] > ')'
    > >
  | power< 'execfile' trailer< '(' filename=any ')' > >" fun i m => do
  let file ← m.one "filename"
  let close ← clone (← childAt (← childAt i (-1)) (-1))
  let opened ← newNode power
    [← name "open", ← argumentsUpTo close [← clone file]]
  let read := [opened,
    ← newNode trailer [← dot, ← name "read"],
    ← newNode trailer [← leftParen, ← rightParen]]
  let fileName ← clone file
  setLead fileName " "
  let compiled ← call (← name "compile")
    (read ++ [← comma, fileName, ← comma, ← string "'exec'" " "]) (some [])
  let args := [compiled] ++ (← furtherArgument m "globals") ++ (← furtherArgument m "locals")
  return .put (← call (← name "exec") args (some (← leadOf i)))

/-- A call of `eval` with one argument. -/
def evalPattern : Pattern := Context.fixed "power< 'eval' trailer< '(' any ')' > >"

/-- `input(…)` becomes `eval(input(…))`, unless it is evaluated already. -/
def input : Fixer := .ofPattern "input" "
  power< 'input' args=trailer< '(' [any] ')' > >" fun i _ => do
  let above ← aboveOf (← aboveOf i)
  if ← Fixer.matches? evalPattern above then return .keep
  return .put (← wrapped "eval" i)

end Retouch.Fixes
