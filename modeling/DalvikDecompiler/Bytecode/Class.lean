import DalvikDecompiler.Bytecode.Method
import DalvikDecompiler.Decimal
import DalvikDecompiler.Text

/-!
# Classes and fields

**Input.** A class as a container delivers it: its place in the hierarchy, its
fields with their initial values and its methods.  Floating-point values are
kept as bit patterns.
-/

namespace DalvikDecompiler
namespace Bytecode

/-- The initial value of a static field. -/
inductive FieldValue where
  | boolean (value : Bool)
  | byte (value : Int8)
  | short (value : Int16)
  | char (unit : UInt16)
  | int (value : Int32)
  | long (value : Int64)
  | float (bits : UInt32)
  | double (bits : UInt64)
  | string (value : String)
  | type (descriptor : String)
  | null
  deriving DecidableEq, Repr

/-- The Java source of an initial value.  Bytes are written as the bits they hold. -/
def FieldValue.javaText : FieldValue → String
  | .boolean b => if b then "true" else "false"
  | .byte v => Text.hex v.toUInt8.toNat
  | .short v => toString v.toInt
  | .char unit => Text.quotedUnit unit
  | .int v => toString v.toInt
  | .long v => toString v.toInt ++ "L"
  | .float bits => Decimal.BinaryFormat.single.spellBits bits.toNat ++ "F"
  | .double bits => Decimal.BinaryFormat.double.spellBits bits.toNat
  | .string s => Text.quoted s
  | .type t => Descriptor.javaName t ++ ".class"
  | .null => "null"

/-- A field. -/
structure Field where
  name : String
  descriptor : String
  access : AccessFlags
  value : Option FieldValue
  deriving DecidableEq, Repr

/-- The descriptor of the class at the top of the hierarchy. -/
def objectDescriptor : String :=
  "Ljava/lang/Object;"

/-- A class. -/
structure Class where
  descriptor : String
  access : AccessFlags
  superclass : Option String
  interfaces : List String
  fields : List Field
  methods : List Method
  deriving DecidableEq, Repr

/-- Whether a class is an interface. -/
def Class.isInterface (c : Class) : Bool :=
  c.access.contains AccessFlags.interfaceBit

end Bytecode
end DalvikDecompiler
