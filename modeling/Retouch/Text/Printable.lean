import Retouch.Text.Word

/-!
# Printable characters

A character that is not printable is written as an escape where a text is quoted.  These are the
control and format characters, the private and unassigned ones, and all separators but the space.
-/

namespace Retouch.Text

def unprintableRuns : List Nat := [
  0,33,12,1,712,4,5,5,4,27,368,70,50,2,3,1,55,39,6,17,22,1,192,1,48,2,59,3,99,15,58,3,49,2,15,1,28,
  2,1,39,9,9,74,1,161,56,9,2,2,2,3,9,1,7,5,2,25,2,3,56,1,1,5,4,2,2,3,3,1,28,9,10,3,56,10,1,3,1,3,18,
  4,5,9,7,7,1,3,56,9,2,2,2,3,7,3,7,5,4,9,17,1,59,5,3,3,1,4,9,1,26,9,5,5,55,9,1,3,1,4,7,2,9,4,19,14,
  55,9,1,3,1,4,7,2,9,4,28,9,9,51,1,3,1,6,4,16,2,20,7,3,70,1,4,6,1,1,1,8,18,3,12,58,4,29,75,22,11,6,
  50,64,49,39,1,36,1,15,1,13,37,160,83,9,609,26,9,26,102,632,9,28,3,87,9,22,9,24,9,20,30,2,12,94,34,
  14,1,1,112,42,118,12,4,12,4,1,3,2,152,62,2,65,1,29,2,1,32,14,2,31,49,71,9,47,1,116,8,60,3,9,9,51,
  63,9,8,42,6,256,441,9,9,9,9,19,6,9,17,24,8,47,21,27,17,33,15,33,15,140,4,663,25,11,21,1812,2,32,1,
  347,7,7,111,2,14,1,96,126,34,26,1,89,12,214,26,12,5,63,89,99,148,84,12,47,1,29287,9,55,9,320,48,
  184,8,143,99,59,4,9,6,56,8,70,8,9,9,116,11,1,32,78,16,8,26,55,9,14,14,102,25,28,57,60,4,126,20271,
  13,54,99,16,409,99,1,32,42,6,51,1,19,1,4,149,124,99,7,1,7,13,2,258,3,52,88,1,13,3,1,47,46,226,1,
  145,9,36,1,40,9,414,1,743,34,166,1,31,1,187,9,1,2,5,4,40,3,4,8,9,9,7,32,64,39,7,9,66,7,89,4,386,9,
  387,3,130,42,39,9,118,78,4,36,9,62,1,5,61,53,9,9,9,39,9,96,51,44,98,9,6,59,21,4,55,10,2,2,2,3,9,1,
  5,7,2,7,3,5,139,92,1,2,33,71,230,9,2,38,34,68,28,13,19,58,99,15,4,16,192,60,241,9,1,2,2,12,99,46,
  2,11,27,72,8,83,395,9,1,14,42,2,32,22,1,14,84,44,3,1,1,2,1,9,62,9,1,2,1,5,344,9,199,50,13,1,1136,
  5,2933,9,14971,2,128,6,10,70,844,9,180,57,7,4,77,5,11,2,19626,4,4704,46,2,23,9,116,60,246,10,39,2,
  74,8,112,21,70,186,87,849,285,9,702,15,5,1,15,1360,7,1,17,2,7,1,2,1,5,261,7,23,2,342,9,56,9,15,1,
  1486,9,41,75,19,2,840,9,80,46,449,2,270,44,4,100,12,15,2,15,1,15,1,37,10,174,56,29,13,44,4,9,7,2,
  14,6,154,984,5,16,3,13,3,116,12,89,7,12,4,1,15,12,4,56,8,10,6,40,8,30,2,2,78,340,12,14,2,5,3,5,3,
  7,9,29,3,11,5,6,10,10,6,8,8,7,9,147,1,55,787765,240,196112]

def isPrintable (c : Char) : Bool :=
  if c.toNat < 128 then 32 ≤ c.toNat && c.toNat < 127
  else isAlphanumeric c || !inRuns unprintableRuns (c.toNat - 128)

end Retouch.Text
