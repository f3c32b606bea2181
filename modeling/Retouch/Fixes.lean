import Retouch.Fixes.Classes
import Retouch.Fixes.Exceptions
import Retouch.Fixes.Literals
import Retouch.Fixes.Samples
import Retouch.Fixes.Spacing
import Retouch.Fixes.Statements
import Retouch.Fixes.TupleParameters
import Retouch.Fixes.WebImports

/-!
# The fixers

All fixers in the order of their names, and the samples apart from them.
-/

namespace Retouch.Fixes

def all : List Fixer := [
  apply, basestring, buffer, callable, dict, except, exec, execfile, exitfunc, filter, funcattrs,
  future, getcwdu, hasKey, idioms, imports, renamedLibrary, renamedDatabases, input, intern,
  isinstance, itertools, itertoolsImports, long, map, metaclass, methodattrs, ne, next, nonzero,
  numliterals, operator, paren, print, raise, rawInput, reduce, renames, repr, setLiteral,
  standarderror, sysExc, throwing, tupleParams, types, unicode, webImports, wsComma, wsEqual,
  wsOperator, xrange, xreadlines, zip]

def samples : List Fixer :=
  [Samples.explicit, Samples.first, Samples.last, Samples.parrot, Samples.preorder]

end Retouch.Fixes
