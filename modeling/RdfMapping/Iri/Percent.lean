/-
# Percent-encoding

A component of an IRI reference is a sequence of bytes, some written as `%` and two
hexadecimal digits.  Which bytes a component may show as they are depends on the
component.
-/
import RdfMapping.Text.Quoted

namespace RdfMapping.Iri

/-- The components that differ in the characters they show. -/
inductive Component where
  | user
  | host
  | zone
  | path
  | fragment
deriving DecidableEq, Repr

namespace Percent

/-- Letters and digits of ASCII. -/
def isAlphanumeric (c : Char) : Bool :=
  ('a' ≤ c && c ≤ 'z') || ('A' ≤ c && c ≤ 'Z') || ('0' ≤ c && c ≤ '9')

/-- The characters written as themselves in a component. -/
def isShown (component : Component) (c : Char) : Bool :=
  isAlphanumeric c || "-_.~".toList.contains c ||
    match component with
    | .user => "$&+,;=".toList.contains c
    | .host | .zone => "!$&'()*+,;=:[]<>\"".toList.contains c
    | .path => "$&+,/:;=@".toList.contains c
    | .fragment => "$&+,/:;=?@!()*".toList.contains c

/-- The characters accepted as they are in a component that is already encoded. -/
def isAccepted (component : Component) (c : Char) : Bool :=
  "!$&'()*+,;=:@[]%".toList.contains c || isShown component c

/-- The value of a hexadecimal digit. -/
def hexValue? (c : Char) : Option Nat :=
  if '0' ≤ c && c ≤ '9' then some (c.toNat - '0'.toNat)
  else if 'a' ≤ c && c ≤ 'f' then some (c.toNat - 'a'.toNat + 10)
  else if 'A' ≤ c && c ≤ 'F' then some (c.toNat - 'A'.toNat + 10)
  else none

/-- Whether a component may hold an encoded byte.  A host encodes a percent sign and bytes
beyond ASCII only; a zone also a space and what a host would show. -/
def mayEncode (component : Component) (byte : Nat) : Bool :=
  match component with
  | .host => 0x80 ≤ byte || byte = 0x25
  | .zone => byte = 0x25 || byte = 0x20 || (byte < 0x80 && isShown .host (Char.ofNat byte))
  | _ => true

/-- Whether a component may hold a character that is not encoded. -/
def mayShow (component : Component) (c : Char) : Bool :=
  match component with
  | .host | .zone => 0x80 ≤ c.toNat || isShown component c
  | _ => true

/-- The bytes a component text stands for, or nothing if it is malformed. -/
def decode? (component : Component) : List Char → Option (List UInt8)
  | [] => some []
  | '%' :: hi :: lo :: rest => do
    let byte := 16 * (← hexValue? hi) + (← hexValue? lo)
    if mayEncode component byte then
      return byte.toUInt8 :: (← decode? component rest)
    else none
  | c :: rest =>
    if c != '%' && mayShow component c then do
      return String.utf8EncodeChar c ++ (← decode? component rest)
    else none

/-- The text of one byte in a component. -/
def encodeByte (component : Component) (byte : UInt8) : List Char :=
  let c := Char.ofNat byte.toNat
  if byte < 0x80 && isShown component c then [c] else '%' :: Text.hexUpper 2 byte.toNat

/-- The text of a component that shows as much as it may. -/
def encode (component : Component) (bytes : List UInt8) : List Char :=
  bytes.flatMap (encodeByte component)

/-- A component after reading and writing it. -/
def normalize? (component : Component) (text : List Char) : Option (List Char) := do
  let bytes ← decode? component text
  if text.all (isAccepted component) then return text
  else return encode component bytes

end Percent

end RdfMapping.Iri
