import Almanac.Text.Pieces

/-!
Requests to read a resource. The fields of a request are written into its address as those of a
form: a blank becomes a plus sign, and all but letters, digits and four marks become the
hexadecimal codes of their bytes. They follow the query that the address already has. A request
without an absolute web address cannot be written, and neither can one whose key is no line of
text.
-/

namespace Almanac.Weather

/-- The parts of an absolute web address; what follows a number sign is not part of it. -/
structure Address where
  scheme : List Char
  authority : List Char
  path : List Char
  query : List Char
deriving DecidableEq, Repr

namespace Address

def isWebScheme (scheme : List Char) : Bool :=
  scheme = "http".toList || scheme = "https".toList

def parse? (cs : List Char) : Option Address := do
  let resource := cs.takeWhile (· ≠ '#')
  let (scheme, rest) ← Text.cutAt ':' (resource.takeWhile (· ≠ '?'))
  let scheme := scheme.map Char.toLower
  match rest with
  | '/' :: '/' :: place =>
    let authority := place.takeWhile (· ≠ '/')
    let path := place.dropWhile (· ≠ '/')
    if isWebScheme scheme && !authority.isEmpty then
      some
        { scheme := scheme
          authority := authority
          path := if path.isEmpty then ['/'] else path
          query := (resource.dropWhile (· ≠ '?')).drop 1 }
    else none
  | _ => none

def toList (address : Address) : List Char :=
  let query := if address.query.isEmpty then [] else '?' :: address.query
  address.scheme ++ "://".toList ++ address.authority ++ address.path ++ query

end Address

def isFormPlain (c : Char) : Bool := c.isAlphanum || "*-._".toList.contains c

def hexDigit (n : Nat) : Char := (Nat.digitChar n).toUpper

def formByte (byte : UInt8) : List Char :=
  ['%', hexDigit (byte.toNat / 16), hexDigit (byte.toNat % 16)]

def formChar (c : Char) : List Char :=
  if c = ' ' then ['+']
  else if isFormPlain c then [c]
  else (String.utf8EncodeChar c).flatMap formByte

def formText (text : String) : List Char := text.toList.flatMap formChar

def formField (field : String × String) : List Char :=
  formText field.1 ++ '=' :: formText field.2

structure Request where
  url : String
  fields : List (String × String)
  authorization : Option String
deriving DecidableEq, Repr

namespace Request

def isLineText (text : String) : Bool :=
  text.toList.all fun c => c = '\t' || (32 ≤ c.toNat && c.toNat ≠ 127)

def address? (request : Request) : Option Address := do
  let address ← Address.parse? request.url.toList
  if request.authorization.all isLineText then
    let parts := request.fields.map formField
    let parts := if address.query.isEmpty then parts else address.query :: parts
    some { address with query := Text.join '&' parts }
  else none

end Request

end Almanac.Weather
