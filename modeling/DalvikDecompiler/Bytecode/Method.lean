import DalvikDecompiler.Bytecode.AccessFlags
import DalvikDecompiler.Bytecode.Instruction
import DalvikDecompiler.Natural

/-!
# Methods

**Input.** A method as a container delivers it: its signature, its basic
blocks and the ranges of code that are protected by exception handlers.

The receiver and the parameters arrive in the last registers of the frame.
-/

namespace DalvikDecompiler
namespace Bytecode

/-- A basic block. -/
structure Block where
  name : String
  /-- The offset of the first instruction. -/
  start : UInt32
  /-- The offset behind the last instruction. -/
  stop : UInt32
  instructions : List Instruction
  /-- The start offset and the index of each block that may follow. -/
  children : List (UInt32 × UInt64)
  deriving DecidableEq, Repr

/-- An exception handler; one without a type catches everything. -/
structure Handler where
  exceptionType : Option String
  /-- The index of the block that handles the exception. -/
  block : UInt64
  deriving DecidableEq, Repr

/-- A range of code and the handlers that protect it, the first match being taken. -/
structure ProtectedRange where
  start : UInt32
  stop : UInt32
  handlers : List Handler
  deriving DecidableEq, Repr

/-- The ranges of a method. -/
structure ExceptionTable where
  ranges : List ProtectedRange
  deriving DecidableEq, Repr

namespace ExceptionTable

/-- A table without ranges. -/
def empty : ExceptionTable :=
  ⟨[]⟩

/-- Whether there are no ranges. -/
def isEmpty (table : ExceptionTable) : Bool :=
  table.ranges.isEmpty

/-- The handlers that protect an offset, in the order of the ranges. -/
def handlersFor (table : ExceptionTable) (offset : UInt32) : List Handler :=
  (table.ranges.filter fun range => range.start ≤ offset && offset < range.stop).flatMap
    ProtectedRange.handlers

end ExceptionTable

/-- A method. -/
structure Method where
  owner : String
  name : String
  descriptor : String
  access : AccessFlags
  /-- The size of the frame. -/
  registers : UInt16
  blocks : List Block
  exceptions : ExceptionTable
  deriving DecidableEq, Repr

namespace Method

/-- A method without a body. -/
def bare (owner name descriptor : String) (access : AccessFlags) : Method :=
  { owner, name, descriptor, access, registers := 0, blocks := [], exceptions := .empty }

/-- Whether the method has a body. -/
def hasBody (m : Method) : Bool :=
  !m.blocks.isEmpty

/-- Whether the method has no receiver. -/
def isStatic (m : Method) : Bool :=
  m.access.contains AccessFlags.staticBit

/-- Whether the method is a constructor. -/
def isConstructor (m : Method) : Bool :=
  m.name == constructorName

/-- The descriptors of the parameters. -/
def params (m : Method) : List String :=
  Descriptor.params m.descriptor

/-- The descriptor of the result. -/
def returnType (m : Method) : String :=
  Descriptor.returnType m.descriptor

/-- The number of registers that the receiver and the parameters take. -/
def argumentWidth (m : Method) : Nat :=
  (if m.isStatic then 0 else 1) + Natural.total (m.params.map Descriptor.registerCount)

/-- Place types one after another from a register on. -/
def placeFrom (register : Nat) : List String → List (UInt16 × Option String)
  | [] => []
  | type :: rest =>
      (UInt16.ofNat register, some type) ::
        placeFrom (register + Descriptor.registerCount type) rest

/-- The registers of the receiver, which has no type here, and of the parameters.  They are the
last ones of the frame, or start at zero in a frame that is too small. -/
def argumentRegisters (m : Method) : List (UInt16 × Option String) :=
  let first := m.registers.toNat - m.argumentWidth
  if m.isStatic then
    placeFrom first m.params
  else
    (UInt16.ofNat first, none) :: placeFrom (first + 1) m.params

/-- Class, name and descriptor in one text. -/
def qualifiedName (m : Method) : String :=
  m.owner ++ "->" ++ m.name ++ m.descriptor

end Method

end Bytecode
end DalvikDecompiler
