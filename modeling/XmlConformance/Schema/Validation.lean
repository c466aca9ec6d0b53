import XmlConformance.Schema.AllGroup
import XmlConformance.Schema.Datatype

/-!
# Schema/Validation — checking instances

An instance is checked from the root down. Of each element the attributes and the content are
checked before any child, and the first violation ends the check. An element names its type itself,
or the declaration that applies to it does.
-/

namespace XmlConformance.Schema

open Xml

/-! ## Violations -/

/-- What is wrong with an element. The names are those that the element or attribute has at its
place. -/
inductive Fault where
  | undeclared (element : String)
  | abstractElement (element : String)
  | unknownType (type element : String)
  | notNillable (element : String)
  | nilledContent (element : String)
  | attributeOfSimple (element attributeName : String)
  | childOfSimple (element : String)
  | fixedElement (value element fixed : String)
  | emptyContent (element : String)
  | simpleContent (element : String)
  | characterContent (element : String)
  | unexpected (child : String) (expected : List String)
  | incomplete (element : String) (expected : List String)
  | strictWildcard (element : String)
  | fixedAttribute (value attributeName element fixed : String)
  | missingAttribute (attributeName element : String)
  | attributeNotAllowed (attributeName element : String)
  | value (fault : ValueFault)
deriving DecidableEq, Repr, Inhabited

namespace Fault

/-- How messages write what is expected. -/
def expectedText (expected : List String) : String :=
  "'\x7b" ++ ", ".intercalate expected ++ "\x7d'"

/-- How messages call the attribute that makes an element nil. -/
def nilText : String := "'" ++ instanceUri ++ ",nil'"

def message : Fault → String
  | .undeclared e => "cvc-elt.1.a: Cannot find the declaration of element '" ++ e ++ "'."
  | .abstractElement e =>
    "cvc-elt.2: The value of \x7babstract\x7d in the element declaration for '" ++ e ++
      "' must be false."
  | .unknownType type e =>
    "cvc-elt.4.2: Cannot resolve '" ++ type ++ "' to a type definition for element '" ++ e ++ "'."
  | .notNillable e =>
    "cvc-elt.3.1: Attribute " ++ nilText ++ " must not appear on element '" ++ e ++
      "', because the \x7bnillable\x7d property of '" ++ e ++ "' is false."
  | .nilledContent e =>
    "cvc-elt.3.2.1: Element '" ++ e ++
      "' cannot have character or element information [children], because " ++ nilText ++
      " is specified."
  | .attributeOfSimple e a =>
    "cvc-type.3.1.1: Element '" ++ e ++
      "' is a simple type, so it cannot have attributes, excepting those whose namespace name " ++
      "is identical to '" ++ instanceUri ++ "' and whose [local name] is one of 'type', 'nil', " ++
      "'schemaLocation' or 'noNamespaceSchemaLocation'. However, the attribute, '" ++ a ++
      "' was found."
  | .childOfSimple e =>
    "cvc-type.3.1.2: Element '" ++ e ++
      "' is a simple type, so it must have no element information item [children]."
  | .fixedElement v e fixed =>
    "cvc-elt.5.2.2.2.2: The value '" ++ v ++ "' of element '" ++ e ++
      "' does not match the \x7bvalue constraint\x7d value '" ++ fixed ++ "'."
  | .emptyContent e =>
    "cvc-complex-type.2.1: Element '" ++ e ++ "' must have no character or element information " ++
      "item [children], because the type's content type is empty."
  | .simpleContent e =>
    "cvc-complex-type.2.2: Element '" ++ e ++
      "' must have no element [children], and the value must be valid."
  | .characterContent e =>
    "cvc-complex-type.2.3: Element '" ++ e ++ "' cannot have character [children], because the " ++
      "type's content type is element-only."
  | .unexpected child [] =>
    "cvc-complex-type.2.4.d: Invalid content was found starting with element '" ++ child ++
      "'. No child element is expected at this point."
  | .unexpected child expected =>
    "cvc-complex-type.2.4.a: Invalid content was found starting with element '" ++ child ++
      "'. One of " ++ expectedText expected ++ " is expected."
  | .incomplete e expected =>
    "cvc-complex-type.2.4.b: The content of element '" ++ e ++ "' is not complete. One of " ++
      expectedText expected ++ " is expected."
  | .strictWildcard e =>
    "cvc-complex-type.2.4.c: The matching wildcard is strict, but no declaration can be found " ++
      "for element '" ++ e ++ "'."
  | .fixedAttribute v a e fixed =>
    "cvc-attribute.4: The value '" ++ v ++ "' of attribute '" ++ a ++ "' on element '" ++ e ++
      "' is not valid with respect to its fixed \x7bvalue constraint\x7d. The attribute must " ++
      "have a value of '" ++ fixed ++ "'."
  | .missingAttribute a e =>
    "cvc-complex-type.4: Attribute '" ++ a ++ "' must appear on element '" ++ e ++ "'."
  | .attributeNotAllowed a e =>
    "cvc-complex-type.3.2.2: Attribute '" ++ a ++ "' is not allowed to appear in element '" ++ e ++
      "'."
  | .value fault => fault.message

end Fault

/-- Why an instance is not accepted. -/
inductive Violation where
  /-- A fault of the element in front of which there are `offset` characters. -/
  | invalid (offset : Nat) (fault : Fault)
  /-- The schema cannot be applied. -/
  | unusable (error : Error)
deriving DecidableEq, Repr, Inhabited

/-- A violation at an element. -/
def violates {α : Type} (t : Tag) (fault : Fault) : Except Violation α :=
  .error (.invalid t.start fault)

/-- The result of a check of a value, at an element. -/
def located (t : Tag) : Except ValueError String → Except Violation String
  | .ok v => .ok v
  | .error (.invalid fault) => violates t (.value fault)
  | .error (.unusable e) => .error (.unusable e)

/-! ## Elements as the check sees them -/

/-- The joined texts directly below an element. -/
def ownCharacters (cs : List Node) : String :=
  String.join (cs.filterMap fun
    | .text s => some s
    | _ => none)

/-- Whether there is a text directly below an element that is more than white space. -/
def hasCharacters (cs : List Node) : Bool :=
  cs.any fun
    | .text s => !(Text.trim s).isEmpty
    | _ => false

/-- The tags of the elements among some nodes. -/
def childTags (cs : List Node) : List Tag := cs.filterMap Node.tag?

/-- The attribute with a name in the namespace for instances. -/
def instanceAttribute? (t : Tag) (localName : String) : Option String :=
  t.attribute? ⟨some instanceUri, localName⟩

/-- The attributes that are not in the namespace for instances. -/
def ownAttributes (t : Tag) : List Attribute :=
  t.attributes.filter (·.name.uri != some instanceUri)

/-- Whether a value differs from the one that is prescribed, white space around them apart. -/
def differs (fixed value : String) : Bool := Text.trim fixed != Text.trim value

/-! ## Types -/

/-- The type that governs an element. -/
inductive Governing where
  | any
  | complex (type : ComplexType)
  | simple (ref : SimpleTypeRef)
  | inline (type : SimpleType)
deriving Inhabited

namespace Grammar

/-- The type with a name. -/
def typeNamed? (g : Grammar) (n : ExpandedName) : Option Governing :=
  if isSchemaName n then
    if n.localName == "anyType" then some .any
    else (Builtin.ofName? n.localName).map fun _ => .simple (.named n)
  else
    (g.types.find? n).map fun
      | .complex t => .complex t
      | .simple _ => .simple (.named n)

/-- **A name stands for a type**: that of all content, a built-in one, or one that is defined. -/
inductive StandsFor (g : Grammar) (n : ExpandedName) : Governing → Prop
  | any (schema : isSchemaName n = true) : StandsFor g n .any
  | builtin {b : Builtin} (schema : isSchemaName n = true)
      (found : Builtin.ofName? n.localName = some b) : StandsFor g n (.simple (.named n))
  | complex {t : ComplexType} (own : isSchemaName n = false)
      (found : g.types.find? n = some (.complex t)) : StandsFor g n (.complex t)
  | simple {t : SimpleType} (own : isSchemaName n = false)
      (found : g.types.find? n = some (.simple t)) : StandsFor g n (.simple (.named n))

theorem standsFor_of_typeNamed? {g : Grammar} {n : ExpandedName} {type : Governing}
    (h : g.typeNamed? n = some type) : g.StandsFor n type := by
  unfold typeNamed? at h
  split at h
  · next schema =>
    split at h
    · cases h
      exact .any schema
    · obtain ⟨b, found, rfl⟩ := Option.map_eq_some_iff.1 h
      exact .builtin schema found
  · next own =>
    have own := eq_false_of_ne_true own
    obtain ⟨d, found, rfl⟩ := Option.map_eq_some_iff.1 h
    cases d with
    | complex t => exact .complex own found
    | simple t => exact .simple own found

/-- The type that a declaration gives to an element. -/
def declaredType (g : Grammar) (decl : ElementDecl) : Except Violation Governing :=
  match decl.type with
  | .any => .ok .any
  | .complex t => .ok (.complex t)
  | .simple t => .ok (.inline t)
  | .named n =>
    match g.typeNamed? n with
    | some t => .ok t
    | none => .error (.unusable (.undefinedType n decl.name))

/-- **A declaration gives a type**: the one that it holds, or that its name for one stands for. -/
inductive Gives (g : Grammar) (decl : ElementDecl) : Governing → Prop
  | any (type : decl.type = .any) : Gives g decl .any
  | complex {t : ComplexType} (type : decl.type = .complex t) : Gives g decl (.complex t)
  | inline {t : SimpleType} (type : decl.type = .simple t) : Gives g decl (.inline t)
  | named {n : ExpandedName} {type' : Governing} (type : decl.type = .named n)
      (named : g.StandsFor n type') : Gives g decl type'

theorem gives_of_declaredType {g : Grammar} {decl : ElementDecl} {type : Governing}
    (h : g.declaredType decl = .ok type) : g.Gives decl type := by
  unfold declaredType at h
  split at h
  · next any => cases h; exact .any any
  · next complex => cases h; exact .complex complex
  · next inline => cases h; exact .inline inline
  · next n named =>
    split at h
    · next found => cases h; exact .named named (standsFor_of_typeNamed? found)
    · cases h

/-- The name that the value of an attribute stands for at an element. -/
def readTypeName? (t : Tag) (value : String) : Option ExpandedName :=
  let (label, localName) := splitName (Text.trim value)
  match label with
  | none => some ⟨namespaceFor t none, localName⟩
  | some _ => (namespaceFor t label).map fun uri => ⟨some uri, localName⟩

/-- The type that an element names itself. -/
def instanceType (g : Grammar) (t : Tag) : Except Violation (Option Governing) :=
  match instanceAttribute? t "type" with
  | none => .ok none
  | some value =>
    match (readTypeName? t value).bind g.typeNamed? with
    | some type => .ok (some type)
    | none => violates t (.unknownType value t.qualifiedName)

/-- The type that governs an element. -/
def governing (g : Grammar) (t : Tag) (decl : ElementDecl) : Except Violation Governing := do
  match ← g.instanceType t with
  | some type => return type
  | none => g.declaredType decl

/-! ## Attributes and values -/

/-- What is known of the attribute with a name: its type and the value that is prescribed. For an
attribute that is admitted without a check, it is `none`. -/
def attributeRule (g : Grammar) (c : ComplexType) (n : ExpandedName) :
    Option (Option (Option SimpleTypeRef × Option String)) :=
  match c.attributes.find? (·.name == n) with
  | some u => some (some (u.type, u.fixed))
  | none =>
    match c.wildcard with
    | none => none
    | some w =>
      if !w.allows n.uri then none
      else
        match w.processing, g.attributes.find? n with
        | .skip, _ => some none
        | _, some d => some (some (d.type, d.fixed))
        | .lax, none => some none
        | .strict, none => if n.uri == some xmlUri then some none else none

/-- Checks an attribute. -/
def checkAttribute (g : Grammar) (c : ComplexType) (t : Tag) (a : Attribute) :
    Except Violation Unit :=
  let display := t.attributeName a.name
  match g.attributeRule c a.name with
  | none => violates t (.attributeNotAllowed display t.qualifiedName)
  | some none => .ok ()
  | some (some (type, fixed)) => do
    let value ← located t (g.check type a.value)
    match fixed.filter (differs · value) with
    | some fixed => violates t (.fixedAttribute value display t.qualifiedName fixed)
    | none => return ()

/-- Checks whether a required attribute is there. -/
def checkPresence (t : Tag) (u : AttributeUse) : Except Violation Unit :=
  if u.use == .required && !t.attributes.any (·.name == u.name) then
    violates t (.missingAttribute u.name.localName t.qualifiedName)
  else .ok ()

/-- Checks the attributes of an element with a complex type. -/
def checkAttributes (g : Grammar) (c : ComplexType) (t : Tag) : Except Violation Unit := do
  (ownAttributes t).forM (g.checkAttribute c t)
  c.attributes.forM (checkPresence t)

/-- Checks a value against the one that a declaration prescribes. -/
def checkFixed (t : Tag) (decl : ElementDecl) (value : String) : Except Violation Unit :=
  match decl.fixed.filter (differs · value) with
  | some fixed => violates t (.fixedElement value t.qualifiedName fixed)
  | none => .ok ()

/-- Checks an element with a simple type. -/
def checkSimpleElement (decl : ElementDecl) (t : Tag) (cs : List Node)
    (check : String → Except ValueError String) : Except Violation Unit :=
  match (ownAttributes t).head? with
  | some a => violates t (.attributeOfSimple t.qualifiedName (t.attributeName a.name))
  | none =>
    if cs.any Node.isElement then violates t (.childOfSimple t.qualifiedName)
    else do
      let value ← located t (check (ownCharacters cs))
      checkFixed t decl value

/-! ## Content -/

/-- The leaves that admit the children of an element. -/
def bind (g : Grammar) (model : Particle) (t : Tag) (cs : List Node) :
    Except Violation (List (Option Leaf)) :=
  let children := childTags cs
  match runModel g.elements model (children.map (·.name)) with
  | .error e => .error (.unusable e)
  | .ok (.ok leaves) => .ok leaves
  | .ok (.error m) =>
    match children[m.position]? with
    | some child => violates child (.unexpected child.qualifiedName m.expected)
    | none => violates t (.incomplete t.qualifiedName m.expected)

/-- Checks the content of an element with a complex type; `children` checks the children against the
leaves that admit them. -/
def checkContentOf (g : Grammar) (c : ComplexType) (decl : ElementDecl) (t : Tag) (cs : List Node)
    (children : List (Option Leaf) → Except Violation Unit) : Except Violation Unit :=
  match c.content with
  | .empty =>
    if cs.any Node.isElement || (!c.mixed && hasCharacters cs) then
      violates t (.emptyContent t.qualifiedName)
    else .ok ()
  | .simple type =>
    if cs.any Node.isElement then violates t (.simpleContent t.qualifiedName)
    else do
      let value ← located t (g.check (some type) (ownCharacters cs))
      checkFixed t decl value
  | .elements model =>
    if !c.mixed && hasCharacters cs then violates t (.characterContent t.qualifiedName)
    else do
      let leaves ← g.bind model t cs
      children leaves

/-- What the attribute that makes an element nil says. -/
def checkNil (decl : ElementDecl) (t : Tag) (cs : List Node) : Except Violation Bool :=
  match instanceAttribute? t "nil" with
  | none => .ok false
  | some value =>
    if !decl.nillable then violates t (.notNillable t.qualifiedName)
    else if ["true", "1"].contains (Text.trim value) then
      if cs.any Node.isElement || hasCharacters cs then
        violates t (.nilledContent t.qualifiedName)
      else .ok true
    else .ok false

/-- Checks an element against a declaration; `children` checks its children against the leaves that
admit them, and `freely` checks them where any content is admitted. -/
def checkElementWith (g : Grammar) (decl : ElementDecl) (t : Tag) (cs : List Node)
    (children : List (Option Leaf) → Except Violation Unit)
    (freely : Unit → Except Violation Unit) : Except Violation Unit :=
  if decl.isAbstract then violates t (.abstractElement t.qualifiedName)
  else do
    let type ← g.governing t decl
    if ← checkNil decl t cs then
      match type with
      | .complex c => g.checkAttributes c t
      | _ => return ()
    else
      match type with
      | .any => freely ()
      | .simple ref => checkSimpleElement decl t cs (g.check (some ref))
      | .inline s => checkSimpleElement decl t cs (g.checkInline s)
      | .complex c =>
        g.checkAttributes c t
        g.checkContentOf c decl t cs children

mutual

/-- Checks a node that is an element against a declaration. -/
def validateNode (g : Grammar) (decl : ElementDecl) : Node → Except Violation Unit
  | .element t cs =>
    g.checkElementWith decl t cs (fun leaves => g.validateChildren leaves cs)
      fun _ => g.validateFreely cs
  | _ => .ok ()

/-- Checks the elements among some nodes against the leaves that admit them. -/
def validateChildren (g : Grammar) (leaves : List (Option Leaf)) :
    List Node → Except Violation Unit
  | [] => .ok ()
  | .element t cs :: rest =>
    match leaves with
    | [] => .ok ()
    | none :: leaves => g.validateChildren leaves rest
    | some (.element decl) :: leaves => do
      g.validateNode decl (.element t cs)
      g.validateChildren leaves rest
    | some (.wildcard w) :: leaves => do
      match w.processing, g.elements.find? t.name with
      | .skip, _ => g.validateChildren leaves rest
      | _, some decl =>
        g.validateNode decl (.element t cs)
        g.validateChildren leaves rest
      | .lax, none =>
        g.validateFreely cs
        g.validateChildren leaves rest
      | .strict, none => violates t (.strictWildcard t.qualifiedName)
  | _ :: rest => g.validateChildren leaves rest

/-- Checks those elements, among some nodes and below them, that are declared. -/
def validateFreely (g : Grammar) : List Node → Except Violation Unit
  | [] => .ok ()
  | .element t cs :: rest => do
    match g.elements.find? t.name with
    | some decl =>
      g.validateNode decl (.element t cs)
      g.validateFreely rest
    | none =>
      g.validateFreely cs
      g.validateFreely rest
  | _ :: rest => g.validateFreely rest

end

/-- **Checks a document.** -/
def validate (g : Grammar) (root : Tag × List Node) : Except Violation Unit :=
  let (t, cs) := root
  match g.elements.find? t.name with
  | some decl => g.validateNode decl (.element t cs)
  | none => violates t (.undeclared t.qualifiedName)

end Grammar

end XmlConformance.Schema
