/-
Query strings: the form encoding of names and values.

Pairs are joined by `&` and a name from its value by `=`.  Letters and digits of ASCII and the signs
`*`, `-`, `.` and `_` stand for themselves, a space is a plus sign, and any other octet of UTF-8 is
`%` with two digits of base sixteen.  The reader takes every text: a percent sign that starts no escape
stands for itself, and octets that are no UTF-8 are replaced.

* `encode` and `decode` — pairs as a query string, and a query string as pairs.
-/
import ListQuery.Text.Digit
import ListQuery.Text.Utf8

namespace ListQuery.FormEncoding

/-- Whether an octet stands for itself. -/
def isPlain (b : UInt8) : Bool :=
  let c := Char.ofNat b.toNat
  decide (b < 0x80) && (c.isAlphanum || c == '*' || c == '-' || c == '.' || c == '_')

/-- An octet in a query string. -/
def encodeOctet (b : UInt8) : List Char :=
  if isPlain b then [Char.ofNat b.toNat]
  else if b = 0x20 then ['+']
  else ['%', Text.hexUpper (b.toNat / 16), Text.hexUpper (b.toNat % 16)]

/-- A name or a value in a query string. -/
def encodeText (s : String) : List Char :=
  (Text.Utf8.encode s.toList).flatMap encodeOctet

/-- A name with its value in a query string. -/
def encodePair (pair : String × String) : List Char :=
  encodeText pair.1 ++ '=' :: encodeText pair.2

/-- The query string of some pairs. -/
def encode (pairs : List (String × String)) : String :=
  String.ofList (List.intercalate ['&'] (pairs.map encodePair))

/-- The octets with escapes resolved, a percent sign that starts no escape left alone. -/
def decodeOctets : List UInt8 → List UInt8
  | [] => []
  | 0x25 :: a :: b :: rest =>
    match Text.digit? 16 (Char.ofNat a.toNat), Text.digit? 16 (Char.ofNat b.toNat) with
    | some hi, some lo => UInt8.ofNat (hi * 16 + lo) :: decodeOctets rest
    | _, _ => 0x25 :: decodeOctets (a :: b :: rest)
  | 0x2B :: rest => 0x20 :: decodeOctets rest
  | b :: rest => b :: decodeOctets rest

/-- The text that octets of a query string stand for. -/
def decodeText (octets : List UInt8) : String :=
  String.ofList (Text.Utf8.decode (decodeOctets octets))

/-- The parts between the octets that are `sep`. -/
def splitAll (sep : UInt8) : List UInt8 → List (List UInt8)
  | [] => [[]]
  | b :: rest =>
    match splitAll sep rest with
    | part :: parts => if b = sep then [] :: part :: parts else (b :: part) :: parts
    | [] => [[b]]

/-- The pair of a part: what stands before its first equals sign, and what after. -/
def decodePair (part : List UInt8) : String × String :=
  (decodeText (part.takeWhile (· != 0x3D)), decodeText ((part.dropWhile (· != 0x3D)).drop 1))

/-- The pairs of a query string, parts without characters left out. -/
def decode (query : String) : List (String × String) :=
  ((splitAll 0x26 (Text.Utf8.encode query.toList)).filter (!·.isEmpty)).map decodePair

end ListQuery.FormEncoding
