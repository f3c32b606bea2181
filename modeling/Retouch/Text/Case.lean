import Retouch.Text.Basic

/-!
# Upper and lower case

Letters beyond ASCII often alternate between the cases.  The table gives the runs of numbers from 128
on; the last digit of an entry is the class of the run, and the others are its length.
-/

namespace Retouch.Text

/-- The classes are 0 for no case, 1 for upper case, 2 for lower case, 3 for upper and lower case by
turns, and 4 for lower and upper case by turns. -/
def caseRuns : List Nat := [
  420,12,100,12,40,12,50,231,10,71,242,10,72,574,174,484,53,22,24,53,23,31,22,31,33,23,31,22,24,33,
  73,43,44,23,21,43,21,22,10,11,32,40,23,34,34,174,194,34,34,21,593,62,24,33,23,34,31,93,692,10,362,
  70,22,300,52,960,12,420,43,20,23,20,42,10,11,60,11,10,31,10,11,10,11,23,171,10,91,342,24,22,31,22,
  244,42,34,10,23,21,22,511,472,354,80,553,143,974,10,381,90,412,28390,381,10,11,50,11,20,432,20,32,
  6720,861,20,62,21780,92,70,431,20,31,640,1922,640,1493,82,984,92,81,62,20,61,20,82,81,82,81,62,20,
  61,20,82,10,11,10,11,10,11,10,11,82,81,142,20,532,10,22,31,23,10,12,30,32,10,22,31,23,30,42,20,22,
  41,40,82,51,50,32,10,22,31,23,1160,12,130,12,160,132,1010,11,40,11,20,12,31,22,21,23,10,11,30,51,
  60,11,10,11,10,11,10,41,10,12,31,23,40,12,20,22,21,50,11,42,40,12,170,161,162,30,23,8170,261,262,
  18140,481,472,34,21,23,74,31,43,24,82,21,993,22,60,43,30,23,120,382,10,12,50,12,309940,463,180,
  273,32,1320,133,22,624,92,64,103,30,43,10,33,22,214,41,23,41,163,31,43,50,23,10,12,10,54,270,23,
  10,32,8210,432,10,132,70,802,202880,72,120,52,10330,261,60,262,11890,401,402,960,361,40,362,1160,
  111,10,151,10,71,10,21,10,112,10,152,10,72,10,22,4510,12,20,32,10,422,10,92,12210,511,130,512,
  29890,321,322,218560,321,322,259840,261,262,261,72,10,182,261,252,24,10,21,20,11,20,21,20,41,10,
  81,42,10,12,10,72,10,112,261,262,21,10,41,20,81,10,71,10,262,21,10,41,10,51,10,11,30,71,10,262,
  261,262,261,262,261,262,261,262,261,262,261,282,20,251,10,252,10,62,251,10,252,10,62,251,10,252,
  10,62,251,10,252,10,62,251,10,252,10,52,34,18440,102,10,202,25290,341,342,20280,261,60,261,60,261]

/-- The case of a number: 1 for upper case, 2 for lower case, and 0 for none. -/
def caseIn : List Nat → Nat → Nat
  | [], _ => 0
  | r :: runs, n =>
    if r / 10 ≤ n then caseIn runs (n - r / 10)
    else match r % 10 with
      | 3 => 1 + n % 2
      | 4 => 2 - n % 2
      | k => k

def isUpper (c : Char) : Bool :=
  if c.toNat < 128 then c.isUpper else caseIn caseRuns (c.toNat - 128) == 1

def isLower (c : Char) : Bool :=
  if c.toNat < 128 then c.isLower else caseIn caseRuns (c.toNat - 128) == 2

/-- Upper case throughout: some letter is upper case and none is lower case. -/
def allUpper (t : Text) : Bool := t.any isUpper && !t.any isLower

end Retouch.Text
