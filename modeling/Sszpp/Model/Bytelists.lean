import Sszpp.Model.Outcome

/-!
# Byte sequences as hexadecimal strings

A `char` is a signed byte. The strings are those of a `std::string_view`, without a terminator.
-/

namespace Sszpp

open Library

def charCode (c : Char) : Byte := BitVec.ofNat 8 c.toNat

/-- The assignments of the constructor of `Table`. -/
def tableEntries : List (Char × Byte) :=
  [('1', 1), ('2', 2), ('3', 3), ('4', 4), ('5', 5), ('6', 6), ('7', 7), ('8', 8), ('9', 9),
    ('a', 10), ('A', 10), ('b', 11), ('B', 11), ('c', 12), ('C', 12), ('d', 13), ('D', 13),
    ('e', 14), ('E', 14), ('f', 15), ('F', 15)]

/-- `_detail::table` -/
def table : List Byte := tableEntries.foldl (fun tab entry => tab.set entry.1.toNat entry.2) (zeros 128)

/-- `hex_to_byte`. The cast of the index to `std::size_t` extends the sign. -/
def hexToByte (number : Byte) : Outcome Byte :=
  match table[(number.signExtend 64).toNat]? with
  | some value => .ok value
  | none => .error (.undefined .read)

/-- `"0x"` -/
def hexPrefix : List Byte := [charCode '0', charCode 'x']

/-- `_sanitize_hextring` -/
def sanitizeHextring (str : List Byte) : Outcome Unit :=
  if str.take 2 ≠ hexPrefix then
    .error (.thrown (.invalidArgument "string not prepended with 0x"))
  else if str.length % 2 = 1 then
    .error (.thrown (.invalidArgument "not an even number of characters \x7b\x7d"))
  else .ok ()

/-- The function that `bytelist_from_str` maps over the chunks. -/
def chunkToByte : List Byte → Outcome Byte
  | [first, second] => do
    let high ← hexToByte first
    let low ← hexToByte second
    .ok (high <<< 4 ||| low)
  | _ => .error (.undefined .read)

/-- `std::ranges::transform` into the beginning of `r`. -/
def transformInto (f : List Byte → Outcome Byte) : List (List Byte) → Bytes → Outcome Bytes
  | [], r => .ok r
  | _ :: _, [] => .error (.undefined .elementWrite)
  | chunk :: chunks, _ :: r => do
    let b ← f chunk
    let r ← transformInto f chunks r
    .ok (b :: r)

/-- `bytelist_from_str`: the new content of `r`. -/
def bytelistFromStr (str : List Byte) (r : Bytes) : Outcome Bytes := do
  sanitizeHextring str
  if 2 * r.length + 2 < str.length then
    .error (.thrown (.outOfRange "hex string larger than bytelist size"))
  else transformInto chunkToByte (pieces 2 (str.drop 2)) r

/-- `characters` -/
def characters : List Byte := "0123456789abcdef".toList.map charCode

def characterAt (i : Byte) : Outcome Byte :=
  match characters[i.toNat]? with
  | some c => .ok c
  | none => .error (.undefined .read)

/-- The loop of `to_string` with the pointer at `buf`. -/
def toStringLoop : (buf : Nat) → Bytes → List Byte → Outcome (List Byte)
  | _, [], ret => .ok ret
  | buf, oneInputByte :: rest, ret => do
    let high ← characterAt (oneInputByte >>> 4)
    let ret ← store buf [high] ret
    let low ← characterAt (oneInputByte &&& 0x0f)
    let ret ← store (buf + 1) [low] ret
    toStringLoop (buf + 2) rest ret

/-- `to_string` -/
def bytelistToString (arr : Bytes) : Outcome (List Byte) := do
  let ret ← store 0 [charCode '0'] (zeros (arr.length * 2 + 2))
  let ret ← store 1 [charCode 'x'] ret
  toStringLoop 2 arr ret

end Sszpp
