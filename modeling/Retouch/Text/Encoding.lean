import Retouch.Text.Cookie

/-!
# Encodings

Characters of a file from its bytes, and the bytes of characters, in the encodings that a file can
declare.
-/

namespace Retouch.Text.Cookie.Encoding

/-- What a table of one byte for each character differs in from the first 256 characters: by byte,
the character, or none if no character has this byte. -/
abbrev Differences := List (Nat × Option Nat)

def latin9Differences : Differences :=
  [(164, some 8364), (166, some 352), (168, some 353), (180, some 381), (184, some 382),
    (188, some 338), (189, some 339), (190, some 376)]

def windows1252Differences : Differences :=
  [(128, some 8364), (129, none), (130, some 8218), (131, some 402), (132, some 8222),
    (133, some 8230), (134, some 8224), (135, some 8225), (136, some 710), (137, some 8240),
    (138, some 352), (139, some 8249), (140, some 338), (141, none), (142, some 381), (143, none),
    (144, none), (145, some 8216), (146, some 8217), (147, some 8220), (148, some 8221),
    (149, some 8226), (150, some 8211), (151, some 8212), (152, some 732), (153, some 8482),
    (154, some 353), (155, some 8250), (156, some 339), (157, none), (158, some 382),
    (159, some 376)]

/-- The Thai alphabet: its characters stand together, with two gaps. -/
def thaiDifferences : Differences :=
  (List.range 95).map fun n =>
    let byte := n + 161
    (byte, if (219 ≤ byte && byte ≤ 222) || 252 ≤ byte then none else some (byte + 3424))

def differences : Encoding → Differences
  | latin9 => latin9Differences
  | windows1252 => windows1252Differences
  | thai => thaiDifferences
  | ascii => (List.range 128).map fun n => (n + 128, none)
  | _ => []

def charOf? (d : Differences) (b : UInt8) : Option Char :=
  match d.lookup b.toNat with
  | some c => c.map Char.ofNat
  | none => some (Char.ofNat b.toNat)

def byteOf? (d : Differences) (c : Char) : Option UInt8 :=
  match d.find? fun (_, n) => n == some c.toNat with
  | some (b, _) => some (UInt8.ofNat b)
  | none =>
    if c.toNat < 256 && (d.lookup c.toNat).isNone then some (UInt8.ofNat c.toNat) else none

def utf8Text? (bs : Bytes) : Option Text := (String.fromUTF8? ⟨bs.toArray⟩).map String.toList

def utf8Bytes (t : Text) : Bytes := (String.ofList t).toUTF8.data.toList

def decode? : Encoding → Bytes → Option Text
  | utf8, bs => utf8Text? bs
  | utf8Signed, bs => utf8Text? (if mark.isPrefixOf bs then bs.drop 3 else bs)
  | e, bs => bs.mapM (charOf? e.differences)

def encode? : Encoding → Text → Option Bytes
  | utf8, t => some (utf8Bytes t)
  | utf8Signed, t => some (mark ++ utf8Bytes t)
  | e, t => t.mapM (byteOf? e.differences)

end Retouch.Text.Cookie.Encoding
