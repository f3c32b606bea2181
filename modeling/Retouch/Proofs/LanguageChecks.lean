import Retouch.Language.Grammar
import Retouch.Proofs.Adjacency
import Retouch.Syntax.Source

/-!
# A check of the tables of the language

What is used of the grammar of programs, apart from what holds of every grammar, is a check that is made
on its tables (`fits`).  The tables pass it, and they parse a sample program (`ofText_grammarText`).
-/

namespace Retouch.Language

/-! ## Kinds of tokens and symbols -/

def isLayout (k : Kind) : Bool := k == Kind.newline || k == Kind.indent || k == Kind.dedent

def isMark (k : Kind) : Bool := k == Kind.comma || k == Kind.colon || k == Kind.equal

def isArithmetic (k : Kind) : Bool :=
  k == Kind.percent || k == Kind.plus || k == Kind.minus || k == Kind.star || k == Kind.slash

/-- The operators that an equal sign right after them would join. -/
def joinsEqual (k : Kind) : Bool :=
  [14, 15, 16, 17, 18, 19, 20, 21, 22, 24, 33, 34, 35, 36, 48].contains k

def beginsEqual (k : Kind) : Bool := k == Kind.equal || k == 28

/-- What cannot follow an equal sign: the operators that begin with one, and the comma. -/
def cannotFollowEqual (k : Kind) : Bool := beginsEqual k || k == Kind.comma

def isSign (k : Kind) : Bool := isMark k || isArithmetic k

def layoutEnders : List Kind :=
  [Symbol.classdef, Symbol.compoundStmt, Symbol.decorated, Symbol.decorator, Symbol.decorators,
    Symbol.forStmt, Symbol.funcdef, Symbol.ifStmt, Symbol.simpleStmt, Symbol.singleInput, Symbol.stmt,
    Symbol.suite, Symbol.tryStmt, Symbol.whileStmt, Symbol.withStmt]

def markBeginners : List Kind := [Symbol.sliceop, Symbol.subscript, Symbol.subscriptlist]

def operatorEnders : List Kind :=
  [Symbol.compOp, Symbol.importFrom, Symbol.importStmt, Symbol.smallStmt, Symbol.typedargslist,
    Symbol.varargslist]

def loneOperators : List Kind := [Symbol.typedargslist, Symbol.varargslist]

def loneSigns : List Kind := loneOperators ++ markBeginners

/-! ## The check -/

/-- The tokens are those of programs, and every program ends with the end of the text. -/
def closes (g : Grammar) : Bool :=
  g.tokens.all (fun e => e.1 < Kind.firstSymbol) &&
  (List.range Kind.firstSymbol).all (fun k => OrderedMap.has g.tokens k == isProgramToken k) &&
  g.endsIn (· != Kind.endMarker) ((OrderedMap.keys g.entries).filter (· != g.start))

def keepsMarks (g : Grammar) : Bool :=
  g.endsIn isLayout layoutEnders && g.beginsIn isMark markBeginners &&
  g.apart (g.reaches isLayout layoutEnders) (g.reaches isMark markBeginners) &&
  !markBeginners.contains g.start

def keepsOperators (g : Grammar) : Bool :=
  g.endsIn isLayout layoutEnders && g.loneIn isArithmetic loneOperators &&
  g.apart (g.reaches isLayout layoutEnders) (g.reaches isArithmetic loneOperators)

/-- Nothing next to an equal sign would join it, and no comma follows it. -/
def keepsEquals (g : Grammar) : Bool :=
  g.endsIn joinsEqual operatorEnders && g.beginsIn (· == Kind.equal) [] &&
  g.apart (g.reaches joinsEqual operatorEnders) (g.reaches (· == Kind.equal) []) &&
  g.endsIn (· == Kind.equal) [] && g.beginsIn cannotFollowEqual [Symbol.compOp] &&
  g.apart (g.reaches (· == Kind.equal) []) (g.reaches cannotFollowEqual [Symbol.compOp])

def keepsTop (g : Grammar) : Bool :=
  g.loneIn isSign loneSigns && g.rootLacks (g.reaches isSign loneSigns)

/-- Symbols that can begin with a round bracket. -/
def bracketKinds : List Kind :=
  [Symbol.atom, Symbol.parameters, Symbol.tfpdef, Symbol.trailer, Symbol.vfpdef]

/-- Does the label stand for the bracket at the end? -/
def closesAt (g : Grammar) (e : Grammar.Entry) (arc : Nat × Nat) : Bool :=
  arc.1 != 0 && g.labelKind arc.1 == Kind.rightParen && (e.states.getD arc.2 []).all (·.1 == 0)

/-- Is there at most one symbol between a bracket at the beginning and the one at the end? -/
def keepsBrackets (g : Grammar) : Bool :=
  g.loneIn (· == Kind.leftParen) [] && g.entries.all fun (k, e) => (e.states.getD 0 []).all fun (i, q) =>
    g.labelKind i != Kind.leftParen || bracketKinds.contains k && (e.states.getD q []).all fun arc =>
      closesAt g e arc || Kind.firstSymbol ≤ g.labelKind arc.1 && (e.states.getD arc.2 []).all (closesAt g e)

def namesSymbols (g : Grammar) : Bool := g.symbols.all fun e => (symbolName? e.2).isSome

def fits (g : Grammar) : Bool :=
  closes g && keepsMarks g && keepsOperators g && keepsEquals g && namesSymbols g && keepsTop g &&
  keepsBrackets g

def sample : Text :=
  ['x', ' ', '=', '\\', '\n', ' ', 'f', '(', 'a', ' ', ',', 'b', ' ', '=', ' ', '1', '-', '2', ')', ' ',
    '#', '!', '\n']

/-- The difference in the sample, as it is parsed. -/
def sampleDifference : SyntaxTree :=
  .node () Symbol.arithExpr
    [.leaf () ⟨Kind.number, .text ['1'], [' '], 2, 10⟩,
      .leaf () ⟨Kind.minus, .text ['-'], [], 2, 11⟩,
      .leaf () ⟨Kind.number, .text ['2'], [], 2, 12⟩]

def sampleSource : Source where
  tree := .node () Symbol.fileInput
    [.node () Symbol.simpleStmt
      [.node () Symbol.exprStmt
        [.leaf () ⟨Kind.name, .text ['x'], [], 1, 0⟩,
          .leaf () ⟨Kind.equal, .text ['='], [' '], 1, 2⟩,
          .node () Symbol.power
            [.leaf () ⟨Kind.name, .text ['f'], ['\\', '\n', ' '], 2, 1⟩,
              .node () Symbol.trailer
                [.leaf () ⟨Kind.leftParen, .text ['('], [], 2, 2⟩,
                  .node () Symbol.arglist
                    [.leaf () ⟨Kind.name, .text ['a'], [], 2, 3⟩,
                      .leaf () ⟨Kind.comma, .text [','], [' '], 2, 5⟩,
                      .node () Symbol.argument
                        [.leaf () ⟨Kind.name, .text ['b'], [], 2, 6⟩,
                          .leaf () ⟨Kind.equal, .text ['='], [' '], 2, 8⟩,
                          sampleDifference]],
                  .leaf () ⟨Kind.rightParen, .text [')'], [], 2, 13⟩]]],
        .leaf () ⟨Kind.newline, .text ['\n'], [' ', '#', '!'], 2, 17⟩],
      .leaf () ⟨Kind.endMarker, .text [], [], 3, 0⟩]
  names := [['x'], ['f'], ['a'], ['b']]

deriving instance DecidableEq for Source

def parsesSample (g : Grammar) : Bool :=
  decide ((Source.parse g .collapsed sample).toOption = some sampleSource)

theorem parse_of_parsesSample {g : Grammar} (h : parsesSample g = true) :
    Source.parse g .collapsed sample = .ok sampleSource := by
  have parsed := of_decide_eq_true h
  cases result : Source.parse g .collapsed sample with
  | error e =>
    rw [result] at parsed
    cases parsed
  | ok source =>
    rw [result] at parsed
    exact congrArg Except.ok (Option.some.inj parsed)

/-- Do the tables of a grammar text satisfy `p`? -/
def tablesSatisfy (p : Grammar → Bool) (text : Text) : Bool :=
  match Grammar.ofText text with
  | .ok g => p g
  | .error _ => false

theorem of_tablesSatisfy {p : Grammar → Bool} {text : Text} (h : tablesSatisfy p text = true) :
    ∃ g, Grammar.ofText text = .ok g ∧ p g = true := by
  unfold tablesSatisfy at h
  split at h
  · rename_i g hg
    exact ⟨g, hg, h⟩
  · cases h

/-- A property of the characters of a literal holds if it holds of the list of characters, which need
not be decoded. -/
theorem holds_toList {p : Text → Bool} {s : String} {l : List Char} (h : s = String.ofList l)
    (hp : p l = true) : p s.toList = true := by
  rwa [h, String.toList_ofList]

set_option maxRecDepth 100000 in
theorem grammarText_checked :
    tablesSatisfy (fun g => fits g && parsesSample g) grammarText = true := by
  unfold grammarText
  refine holds_toList rfl ?_
  decide +kernel

/-- The grammar text has tables, which pass the check. -/
theorem ofText_grammarText : Grammar.ofText grammarText = .ok grammar ∧ fits grammar = true ∧
    Source.parse grammar .collapsed sample = .ok sampleSource := by
  obtain ⟨g, hg, checked⟩ := of_tablesSatisfy grammarText_checked
  obtain ⟨fit, parsed⟩ := Bool.and_eq_true_iff.1 checked
  have eq : grammar = g := by rw [grammar, hg]; rfl
  rw [eq]
  exact ⟨hg, fit, parse_of_parsesSample parsed⟩

end Retouch.Language
