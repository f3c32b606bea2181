import Retouch.Token.Kind

/-!
# The symbols of the Python grammar

The start symbol has the first number of a grammar symbol, and the others follow in the order of
their names.
-/

namespace Retouch.Language

def symbolNames : List Text := List.map String.toList [
    "file_input", "and_expr", "and_test", "arglist", "argument", "arith_expr", "assert_stmt",
    "atom", "augassign", "break_stmt", "classdef", "comp_for", "comp_if", "comp_iter", "comp_op",
    "comparison", "compound_stmt", "continue_stmt", "decorated", "decorator", "decorators",
    "del_stmt", "dictsetmaker", "dotted_as_name", "dotted_as_names", "dotted_name",
    "encoding_decl", "eval_input", "except_clause", "exec_stmt", "expr", "expr_stmt", "exprlist",
    "factor", "flow_stmt", "for_stmt", "funcdef", "global_stmt", "if_stmt", "import_as_name",
    "import_as_names", "import_from", "import_name", "import_stmt", "lambdef", "listmaker",
    "not_test", "old_lambdef", "old_test", "or_test", "parameters", "pass_stmt", "power",
    "print_stmt", "raise_stmt", "return_stmt", "shift_expr", "simple_stmt", "single_input",
    "sliceop", "small_stmt", "star_expr", "stmt", "subscript", "subscriptlist", "suite", "term",
    "test", "testlist", "testlist1", "testlist_gexp", "testlist_safe", "testlist_star_expr",
    "tfpdef", "tfplist", "tname", "trailer", "try_stmt", "typedargslist", "varargslist", "vfpdef",
    "vfplist", "vname", "while_stmt", "with_item", "with_stmt", "with_var", "xor_expr",
    "yield_expr", "yield_stmt"]

def symbolName? (k : Kind) : Option Text :=
  if k < Kind.firstSymbol then none else symbolNames[k - Kind.firstSymbol]?

def symbol? (name : Text) : Option Kind := (symbolNames.idxOf? name).map (Kind.firstSymbol + ·)

namespace Symbol

def fileInput : Kind := 256
def andExpr : Kind := 257
def andTest : Kind := 258
def arglist : Kind := 259
def argument : Kind := 260
def arithExpr : Kind := 261
def atom : Kind := 263
def classdef : Kind := 266
def compFor : Kind := 267
def compIf : Kind := 268
def compOp : Kind := 270
def comparison : Kind := 271
def compoundStmt : Kind := 272
def decorated : Kind := 274
def decorator : Kind := 275
def decorators : Kind := 276
def dictsetmaker : Kind := 278
def dottedAsName : Kind := 279
def dottedAsNames : Kind := 280
def dottedName : Kind := 281
def exceptClause : Kind := 284
def expr : Kind := 286
def exprStmt : Kind := 287
def factor : Kind := 289
def forStmt : Kind := 291
def funcdef : Kind := 292
def ifStmt : Kind := 294
def importAsName : Kind := 295
def importAsNames : Kind := 296
def importFrom : Kind := 297
def importName : Kind := 298
def importStmt : Kind := 299
def lambdef : Kind := 300
def listmaker : Kind := 301
def notTest : Kind := 302
def orTest : Kind := 305
def parameters : Kind := 306
def power : Kind := 308
def raiseStmt : Kind := 310
def shiftExpr : Kind := 312
def simpleStmt : Kind := 313
def singleInput : Kind := 314
def sliceop : Kind := 315
def smallStmt : Kind := 316
def stmt : Kind := 318
def subscript : Kind := 319
def subscriptlist : Kind := 320
def suite : Kind := 321
def term : Kind := 322
def test : Kind := 323
def testlist1 : Kind := 325
def testlistGexp : Kind := 326
def tfpdef : Kind := 329
def trailer : Kind := 332
def tryStmt : Kind := 333
def typedargslist : Kind := 334
def varargslist : Kind := 335
def vfpdef : Kind := 336
def vfplist : Kind := 337
def whileStmt : Kind := 339
def withStmt : Kind := 341
def xorExpr : Kind := 343

end Symbol

end Retouch.Language

namespace Retouch

/-- Is the kind that of a token in programs?  Comments and ends of lines inside a statement are none,
and an operator has a kind of its own. -/
def isProgramToken (k : Kind) : Bool :=
  k < Kind.stray && !([Kind.operator, Kind.comment, Kind.lineBreak].contains k)

def isProgramKind (k : Kind) : Bool := (Language.symbolName? k).isSome || isProgramToken k

end Retouch
