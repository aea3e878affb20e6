import Bindery.Roster
import Bindery.Table
import Bindery.Text.Span
import Bindery.Store.Arena

/-!
# What classes declare

What a class or interface declares: its bases, its members, and the modifiers that are replaced
when a member is shown on its own.

* `ClassInfo.addProperty`, `ClassInfo.addMethod`, `ClassInfo.addModifierChange`: filling it.
* `ClassInfo.memberSpan?`: where a member stands.
-/

namespace Bindery

/-- How a property is read and written. -/
inductive AccessorKind where
  | field
  | getter
  | setter
  deriving DecidableEq, Repr

/-- A property, getter or setter. -/
structure Property where
  name : String
  span : Span
  nameSpan : Span
  isStatic : Bool
  accessor : AccessorKind
  hasType : Bool
  deriving DecidableEq, Repr

/-- A method. -/
structure Method where
  name : String
  span : Span
  nameSpan : Span
  typeParameters : List String
  isStatic : Bool
  isAbstract : Bool
  deriving DecidableEq, Repr

/-- A modifier that is replaced when its member is shown on its own. -/
structure ModifierChange where
  span : Span
  replacement : String
  deriving DecidableEq, Repr

/-- What a class or interface declares. -/
structure ClassInfo where
  isInterface : Bool
  isAbstract : Bool
  /-- The qualified name of the base class. -/
  base : Option String := none
  /-- The base class as it was found when the class was bound. -/
  parent : Option SymbolId := none
  /-- The bases of an interface after the first. -/
  extraBases : Roster String := {}
  interfaces : Roster String := {}
  typeParameters : List String := []
  properties : Table Property := {}
  staticProperties : Table Property := {}
  methods : Table Method := {}
  /-- The body of the last constructor that has one. -/
  constructorBody : Option Span := none
  /-- Replaced modifiers by the written form of their spans. -/
  modifierChanges : Table ModifierChange := {}
  /-- The name under which the class can be converted. -/
  convertible : Option String := none
  /-- The short name of a base class whose import is still waiting. -/
  awaitedBase : Option String := none

namespace ClassInfo

instance : Inhabited ClassInfo := ⟨{ isInterface := false, isAbstract := false }⟩

/-- Declare a property among those of the instances or those of the class; of two with one name the
later counts. -/
def addProperty (c : ClassInfo) (p : Property) : ClassInfo :=
  if p.isStatic then { c with staticProperties := c.staticProperties.insert p.name p }
  else { c with properties := c.properties.insert p.name p }

/-- Declare a method. -/
def addMethod (c : ClassInfo) (m : Method) : ClassInfo :=
  { c with methods := c.methods.insert m.name m }

/-- Replace a modifier. -/
def addModifierChange (c : ClassInfo) (t : ModifierChange) : ClassInfo :=
  { c with modifierChanges := c.modifierChanges.insert t.span.key t }

/-- Whether the class itself declares a static property. -/
def hasOwnStatic (c : ClassInfo) (name : String) : Bool := c.staticProperties.contains name

/-- A property of the instances, else one of the class. -/
def property? (c : ClassInfo) (name : String) : Option Property :=
  (c.properties.get? name).or (c.staticProperties.get? name)

/-- A method. -/
def method? (c : ClassInfo) (name : String) : Option Method := c.methods.get? name

/-- Where a property or method stands; a property hides a method of the same name. -/
def memberSpan? (c : ClassInfo) (name : String) : Option Span :=
  ((c.property? name).map Property.span).or ((c.method? name).map Method.span)

/-- A static property is found after it was declared. -/
theorem hasOwnStatic_addProperty (c : ClassInfo) {p : Property} (h : p.isStatic = true) :
    (c.addProperty p).hasOwnStatic p.name = true := by
  simp [addProperty, h, hasOwnStatic, Table.contains, Table.get?_insert]

end ClassInfo

end Bindery
