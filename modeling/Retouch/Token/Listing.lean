import Retouch.Text.Quoted
import Retouch.Token.Scan

/-!
# Listings of tokens

One line for each token: where it starts and stops, the name of its kind, and its text in quotes.
-/

namespace Retouch.Token

def listing (t : Token) : Text :=
  Text.ofNat t.start.row ++ "," ++ Text.ofNat t.start.column ++ "-" ++
    Text.ofNat t.stop.row ++ "," ++ Text.ofNat t.stop.column ++ ":\t" ++
    (Kind.tokenName? t.kind).getD [] ++ "\t" ++ Text.quoted t.text ++ "\n"

end Retouch.Token

namespace Retouch.Scan

/-- The listing of a scan, or of its first `limit` tokens.  A scan that fails is listed only if the
limit is reached before the failure. -/
def listing (limit : Option Nat) (s : Scan) : Except ScanError Text :=
  let shown := match limit with
    | some n => s.tokens.take n
    | none => s.tokens
  let stopped : Bool := match limit with
    | some n => n < s.tokens.length
    | none => false
  match s.failure with
  | some e => if stopped then .ok (shown.flatMap Token.listing) else .error e
  | none => .ok (shown.flatMap Token.listing)

end Retouch.Scan
