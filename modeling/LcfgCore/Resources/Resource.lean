import LcfgCore.Components.ResList
import LcfgCore.DerivationText

/-!
# Typed resources

All fields of a resource, the values each type allows and the comparison of values by
type (`resources/resource.c`).
-/
namespace Lcfg

inductive LCFGResourceType where
  | string | integer | boolean | list | publish | subscribe
deriving DecidableEq, Repr

/-- A resource with the fields which a merge does not read. -/
structure TypedResource extends LCFGResource where
  type : LCFGResourceType := .string
  template : List String := []
  comment : Option String := none
  derivation : LCFGDerivationList := []
deriving DecidableEq

namespace TypedResource

/-- `lcfgresource_new` -/
def new : TypedResource := { name := none, value := none, context := none, priority := 0 }

def isValid (res : TypedResource) : Bool := Resource.isValid res.toLCFGResource

def hasValue (res : TypedResource) : Bool := !isEmpty res.value

def hasContext (res : TypedResource) : Bool := !isEmpty res.context

def hasComment (res : TypedResource) : Bool := !isEmpty res.comment

def hasDerivation (res : TypedResource) : Bool := res.derivation ≠ []

/-! ## Values -/

def validBoolean (value : String) : Bool := value == "" || value == "yes"

def validInteger (value : String) : Bool :=
  let digits := match value.toList with
    | '-' :: rest => rest
    | text => text
  digits ≠ [] && (digits.head? ≠ some '0' || digits = ['0']) && digits.all Char.isDigit

/-- Tags are words, with spaces between them. -/
def validList (value : String) : Bool := value.toList.all fun c => isWord c || c == ' '

def validValueForType (type : LCFGResourceType) (value : String) : Bool :=
  match type with
  | .integer => validInteger value
  | .boolean => validBoolean value
  | .list => validList value
  | .string | .publish | .subscribe => true

def needsEncode (res : TypedResource) : Bool :=
  hasValue res && (res.value.getD "").toList.any fun c => "\r\n&".toList.contains c

/-- One character of an encoded value. -/
def encChar (c : Char) : List Char :=
  if c = '\r' then "&#xD;".toList
  else if c = '\n' then "&#xA;".toList
  else if c = '&' then "&#x26;".toList
  else [c]

/-- `lcfgresource_enc_value` -/
def encValue (value : List Char) : List Char := value.flatMap encChar

/-- `strtol` with base 10 and 64-bit results; 0 if there is no number. -/
def strtol10 (s : List Char) : Int :=
  let (negative, s) := strtoulSign (s.dropWhile isSpace)
  let value := (s.takeWhile Char.isDigit).foldl (fun (n : Int) c => 10 * n + digitVal c) 0
  if negative then max (-2 ^ 63) (-value) else min (2 ^ 63 - 1) value

/-- `lcfgresource_compare_values`: true is greater than false, and integers are compared as
numbers, if both resources have the same type. -/
def compareValues (res1 res2 : TypedResource) : Int :=
  let value1 := orDefault res1.value ""
  let value2 := orDefault res2.value ""
  if res1.type = .boolean ∧ res1.type = res2.type then
    if value1 = "yes" then if value2 = "yes" then 0 else 1
    else if value2 = "yes" then -1 else 0
  else if res1.type = .integer ∧ res1.type = res2.type then
    let value1 := strtol10 value1.toList
    let value2 := strtol10 value2.toList
    if value1 = value2 then 0 else if value1 > value2 then 1 else -1
  else strcmp value1 value2

def sameValue (res1 res2 : TypedResource) : Bool := compareValues res1 res2 = 0

def sameName (res1 res2 : TypedResource) : Bool :=
  Resource.sameName res1.toLCFGResource res2.toLCFGResource

end TypedResource

end Lcfg
