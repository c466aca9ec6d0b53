import XmlConformance.Schema.Error
import XmlConformance.Schema.Facet

/-!
# Schema/Datatype — checking values of simple types

A value of a restriction is a value of its base that keeps the facets. A list consists of values of
its item type, and a union admits what one of its members admits. The result of a check is the value
with normalized white space. Derivations are followed at most `derivationLimit` steps, which also
ends circular ones.
-/

namespace XmlConformance.Schema

open Xml

/-- Why a value is not accepted. -/
inductive ValueError where
  | invalid (fault : ValueFault)
  /-- The type itself cannot be used. -/
  | unusable (error : Error)
deriving DecidableEq, Repr, Inhabited

def ValueError.message : ValueError → String
  | .invalid fault => fault.message
  | .unusable e => e.message

/-- How messages call a type without a name. -/
def anonymousName : String := "#AnonType"

/-- How many steps of a derivation are followed. -/
def derivationLimit : Nat := 65

namespace Builtin

/-- Checks a value of a built-in type. -/
def check (b : Builtin) (raw typeName : String) : Except ValueError String :=
  let value := b.whiteSpace.apply raw
  if b.admits value then .ok value else .error (.invalid (.lexical value typeName))

/-- What the values of a built-in type are. -/
def variety (b : Builtin) : Variety :=
  if b.item?.isSome then .list else .atomic b

end Builtin

namespace Grammar

/-! ## Varieties -/

/-- The variety of a type, given that of the base of a restriction. -/
def varietyOfType (ofBase : SimpleTypeRef → Except Error Variety) : SimpleType →
    Except Error Variety
  | .restriction base _ => ofBase base
  | .list _ => .ok .list
  | .union _ => .ok .union

/-- What the values of a type are; at most `steps` steps of its derivation are followed. -/
def variety (g : Grammar) : (steps : Nat) → SimpleTypeRef → Except Error Variety
  | 0, _ => .error .derivationTooDeep
  | steps + 1, .named name =>
    if isSchemaName name then
      match Builtin.ofName? name.localName with
      | some b => .ok b.variety
      | none => .error (.notABuiltin name.localName)
    else
      match g.types.find? name with
      | some (.simple t) => varietyOfType (g.variety steps) t
      | some (.complex ⟨_, _, .simple inner, _, _, _⟩) => g.variety steps inner
      | _ => .error (.notASimpleType name)
  | steps + 1, .inline t => varietyOfType (g.variety steps) t

/-- Whether a reference leads to a simple type. -/
def resolves (g : Grammar) (ref : SimpleTypeRef) : Bool :=
  (g.variety derivationLimit ref).isOk

/-! ## Values -/

/-- Checks every word of a list. -/
def checkWords (check : String → Except ValueError String) : List String → Except ValueError Unit
  | [] => .ok ()
  | w :: ws =>
    match check w with
    | .ok _ => checkWords check ws
    | .error e => .error e

/-- The value of the first member of a union that admits a text. -/
def checkMembers (check : SimpleTypeRef → Except ValueError String) (fault : ValueFault) :
    List SimpleTypeRef → Except ValueError String
  | [] => .error (.invalid fault)
  | m :: ms =>
    match check m with
    | .error (.invalid _) => checkMembers check fault ms
    | result => result

/-- The facets of a restriction applied to a value of its base. -/
def checkFacets (f : Facets) (typeName : String) (variety : Except Error Variety)
    (baseValue : String) : Except ValueError String :=
  let value := (f.whiteSpace.map (·.apply baseValue)).getD baseValue
  match variety with
  | .error e => .error (.unusable e)
  | .ok v =>
    match f.fault? typeName value v with
    | some fault => .error (.invalid fault)
    | none => .ok value

/-- Checks a value of a type, given how to check values of the types that it refers to. -/
def checkTypeWith (check : SimpleTypeRef → String → Except ValueError String)
    (variety : SimpleTypeRef → Except Error Variety) (typeName : String) (t : SimpleType)
    (raw : String) : Except ValueError String :=
  match t with
  | .restriction base facets => do
    let baseValue ← check base raw
    checkFacets facets typeName (variety base) baseValue
  | .list item => do
    let value := WhiteSpace.collapse.apply raw
    checkWords (check item) (tokens value)
    return value
  | .union members =>
    checkMembers (check · raw) (.union (WhiteSpace.collapse.apply raw) typeName) members

/-- Checks a value; at most `steps` steps of the derivation of its type are followed. -/
def checkRef (g : Grammar) : (steps : Nat) → SimpleTypeRef → String → Except ValueError String
  | 0, _, _ => .error (.unusable .derivationTooDeep)
  | steps + 1, .named name, raw =>
    if isSchemaName name then
      match Builtin.ofName? name.localName with
      | some b => b.check raw name.localName
      | none => .error (.unusable (.notABuiltin name.localName))
    else
      match g.types.find? name with
      | some (.simple t) =>
        checkTypeWith (g.checkRef steps) (g.variety steps) name.localName t raw
      | some (.complex ⟨_, _, .simple inner, _, _, _⟩) => g.checkRef steps inner raw
      | _ => .error (.unusable (.notASimpleType name))
  | steps + 1, .inline t, raw =>
    checkTypeWith (g.checkRef steps) (g.variety steps) anonymousName t raw

/-- **Checks a value of a simple type**; without a type everything is a value. -/
def check (g : Grammar) (ref : Option SimpleTypeRef) (raw : String) : Except ValueError String :=
  match ref with
  | some ref => g.checkRef derivationLimit ref raw
  | none => .ok raw

/-- Checks a value of a simple type without a name. -/
def checkInline (g : Grammar) (t : SimpleType) (raw : String) : Except ValueError String :=
  checkTypeWith (g.checkRef derivationLimit) (g.variety derivationLimit) anonymousName t raw

end Grammar

end XmlConformance.Schema
