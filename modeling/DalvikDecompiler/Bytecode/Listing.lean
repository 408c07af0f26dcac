import DalvikDecompiler.Bytecode.Method
import DalvikDecompiler.Text

/-!
# Assembler listings

**Input.** The lines of a method body: labels, instructions whose targets are
labels, and ranges between labels that are protected by handlers at labels.

**Algorithm.** Instructions are placed one after another.  A block starts at
the first instruction, at each label and behind each instruction that
transfers control.  The children of a block are its fall-through, if it has
one, and then the targets of its last instruction.

**Results.** A layout fails exactly for a label without a line, a target label
behind the last instruction, or a branch that would run off the end of the
code.
-/

namespace DalvikDecompiler
namespace Bytecode

/-- Where an instruction may go besides falling through. -/
inductive Target where
  | none
  | label (name : String)
  | cases (names : List String)
  deriving DecidableEq, Repr

/-- A line of a listing. -/
inductive Line where
  | label (name : String)
  | code (opcode : Opcode) (operands : List Operand) (target : Target)
  | protect (start stop : String) (handlers : List (Option String × String))
  deriving DecidableEq, Repr

/-- A listing is the list of its lines. -/
abbrev Listing := List Line

/-- Why a listing has no layout. -/
inductive LayoutError where
  | undefinedLabel (name : String)
  | labelPastEnd (name : String)
  | branchFallsOff (offset : Nat)
  | switchFallsOff (offset : Nat)
  deriving DecidableEq, Repr

/-- The wording of a layout error. -/
def LayoutError.message : LayoutError → String
  | .undefinedLabel name => "undefined label '" ++ name ++ "'"
  | .labelPastEnd name => "label '" ++ name ++ "' has no instruction"
  | .branchFallsOff offset => "branch at " ++ Text.hex offset ++ " falls off the code"
  | .switchFallsOff offset => "switch at " ++ Text.hex offset ++ " falls off the code"

namespace Line

/-- An instruction without targets. -/
def raw (opcode : Opcode) (operands : List Operand) : Line :=
  .code opcode operands .none

/-- An instruction on registers alone. -/
def op (opcode : Opcode) (registers : List UInt16) : Line :=
  raw opcode (registers.map .register)

/-- Load an integer with the shortest encoding. -/
def loadInt (dst : UInt16) (value : Int32) : Line :=
  let v := value.toInt
  let opcode :=
    if -8 ≤ v ∧ v ≤ 7 then Opcode.const4
    else if -32768 ≤ v ∧ v ≤ 32767 then Opcode.const16
    else Opcode.const
  raw opcode [.register dst, .literal (Int64.ofInt v)]

/-- Load a wide integer. -/
def loadWide (dst : UInt16) (value : Int64) : Line :=
  raw .loadWide [.register dst, .wideLiteral value]

/-- Load a text. -/
def loadString (dst : UInt16) (value : String) : Line :=
  raw .loadString [.register dst, .string value]

/-- Load a class. -/
def loadClass (dst : UInt16) (type : String) : Line :=
  raw .loadClass [.register dst, .type type]

/-- Allocate an object. -/
def newInstance (dst : UInt16) (type : String) : Line :=
  raw .newInstance [.register dst, .type type]

/-- Allocate an array. -/
def newArray (dst size : UInt16) (type : String) : Line :=
  raw .newArray [.register dst, .register size, .type type]

/-- Check the class of an object. -/
def checkCast (register : UInt16) (type : String) : Line :=
  raw .checkCast [.register register, .type type]

/-- Test the class of an object. -/
def instanceOf (dst src : UInt16) (type : String) : Line :=
  raw .instanceOf [.register dst, .register src, .type type]

/-- Read or write a field. -/
def field (opcode : Opcode) (registers : List UInt16) (field : FieldRef) : Line :=
  raw opcode (registers.map .register ++ [.field field])

/-- Call a method. -/
def invoke (opcode : Opcode) (method : MethodRef) (arguments : List UInt16) : Line :=
  raw opcode (arguments.map .register ++ [.method method])

/-- Allocate an array of given elements. -/
def filledNewArray (type : String) (elements : List UInt16) : Line :=
  raw .filledNewArray (elements.map .register ++ [.type type])

/-- Fill an array with data. -/
def fillArrayData (register width : UInt16) (data : List UInt8) : Line :=
  raw .fillArrayData [.register register, .dataConstants width data]

/-- Combine a register with a literal. -/
def binaryLiteral (opcode : Opcode) (dst src : UInt16) (value : Int32) : Line :=
  raw opcode [.register dst, .register src, .literal (Int64.ofInt value.toInt)]

/-- Branch on registers. -/
def branch (opcode : Opcode) (registers : List UInt16) (target : String) : Line :=
  .code opcode (registers.map .register) (.label target)

/-- Branch on the keys of a table. -/
def switch (opcode : Opcode) (register : UInt16) (arms : List (Int32 × String)) : Line :=
  .code opcode [.register register, .switchKeys (arms.map (·.1))] (.cases (arms.map (·.2)))

end Line

/-- An instruction of a listing. -/
structure ListingItem where
  opcode : Opcode
  operands : List Operand
  target : Target
  deriving DecidableEq, Repr

namespace Listing

/-- The instructions in order. -/
def items (lines : Listing) : List ListingItem :=
  lines.filterMap fun
    | .code opcode operands target => some ⟨opcode, operands, target⟩
    | _ => none

/-- The labels with the index of the instruction behind each, the last line first. -/
def labelsFrom (index : Nat) (found : List (String × Nat)) : Listing → List (String × Nat)
  | [] => found
  | .label name :: rest => labelsFrom index ((name, index) :: found) rest
  | .code .. :: rest => labelsFrom (index + 1) found rest
  | .protect .. :: rest => labelsFrom index found rest

/-- Put a label in front, unless it is there already. -/
def addLabel (label : String × Nat) (rest : List (String × Nat)) : List (String × Nat) :=
  label :: rest.filter fun other => other.1 != label.1

/-- The labels with their indices; the last of several lines with one label counts. -/
def labels (lines : Listing) : List (String × Nat) :=
  (labelsFrom 0 [] lines).foldr addLabel []

/-- The offset of each instruction, and the one behind the last. -/
def offsetsFrom (offset : Nat) : List ListingItem → List Nat
  | [] => [offset]
  | item :: rest => offset :: offsetsFrom (offset + item.opcode.codeUnits) rest

/-- Mark the instructions at which blocks start: the first one, those with a label and those
behind a transfer of control. -/
def leadersFrom (labelled : List Nat) (index : Nat) (starts : Bool) : List ListingItem → List Nat
  | [] => []
  | item :: rest =>
      let more := leadersFrom labelled (index + 1) item.opcode.transfersControl rest
      if starts || labelled.contains index then index :: more else more

end Listing

/-- What is known about a listing before its blocks are laid out. -/
structure Layout where
  items : List ListingItem
  /-- The index that each label stands for. -/
  labels : List (String × Nat)
  /-- The offset of each instruction, and the one behind the last. -/
  offsets : Array Nat
  /-- The indices at which blocks start. -/
  leaders : List Nat

namespace Layout

/-- The layout of a listing. -/
def ofListing (lines : Listing) : Layout :=
  let items := lines.items
  let labels := lines.labels
  { items
    labels
    offsets := (Listing.offsetsFrom 0 items).toArray
    leaders := Listing.leadersFrom (labels.map Prod.snd) 0 true items }

/-- The offset of the instruction with an index. -/
def offsetAt (l : Layout) (index : Nat) : Nat :=
  l.offsets[index]?.getD 0

/-- The block that holds the instruction with an index. -/
def blockOf (l : Layout) (index : Nat) : Nat :=
  (l.leaders.filter (· ≤ index)).length - 1

/-- The offset and the block of the instruction with an index. -/
def place (l : Layout) (index : Nat) : UInt32 × UInt64 :=
  (UInt32.ofNat (l.offsetAt index), UInt64.ofNat (l.blockOf index))

/-- The index of a label that has to be defined. -/
def requireLabel (l : Layout) (name : String) : Except LayoutError Nat :=
  match l.labels.lookup name with
  | some index => .ok index
  | none => .error (.undefinedLabel name)

/-- The index of the instruction at a label. -/
def targetIndex (l : Layout) (name : String) : Except LayoutError Nat := do
  let index ← l.requireLabel name
  if l.items.length ≤ index then
    throw (.labelPastEnd name)
  return index

/-- The offset and block of the instruction at a label. -/
def targetBlock (l : Layout) (name : String) : Except LayoutError (UInt32 × UInt64) :=
  (l.targetIndex name).map l.place

/-- The decoded form of the instruction with an index. -/
def decode (l : Layout) (index : Nat) (item : ListingItem) :
    Except LayoutError Instruction := do
  let offset := l.offsetAt index
  let branchDistance ←
    match item.target with
    | .label name => do
        let target ← l.targetIndex name
        pure (some (Int32.ofInt ((l.offsetAt target : Int) - offset)))
    | _ => pure none
  return {
    opcode := item.opcode
    operands := item.operands
    offset := UInt32.ofNat offset
    length := UInt32.ofNat item.opcode.codeUnits
    branchDistance }

/-- What follows a block that ends before the index `stop` with a given instruction. -/
def childrenOf (l : Layout) (stop : Nat) (last : ListingItem) :
    Except LayoutError (List (UInt32 × UInt64)) :=
  let fallThrough := if stop < l.items.length then some (l.place stop) else none
  match last.target with
  | .label name =>
      if last.opcode.isGoto then do
        return [← l.targetBlock name]
      else
        match fallThrough with
        | none => .error (.branchFallsOff (l.offsetAt (stop - 1)))
        | some next => do
            return [next, ← l.targetBlock name]
  | .cases names =>
      match fallThrough with
      | none => .error (.switchFallsOff (l.offsetAt (stop - 1)))
      | some next => do
          return next :: (← names.mapM l.targetBlock)
  | .none =>
      if last.opcode.isReturn || last.opcode.isThrow then .ok [] else .ok fallThrough.toList

/-- The block from the index `first` up to the index `stop`. -/
def block (l : Layout) (methodName : String) (first stop : Nat) : Except LayoutError Block := do
  let items := (l.items.take stop).drop first
  let instructions ←
    (items.zipIdx first).mapM fun (item, index) => l.decode index item
  let children ←
    match items.getLast? with
    | some last => l.childrenOf stop last
    | none => pure []
  let start := l.offsetAt first
  return {
    name := methodName ++ "-BB@" ++ Text.hex start
    start := UInt32.ofNat start
    stop := UInt32.ofNat (l.offsetAt stop)
    instructions
    children }

/-- The blocks that start at the given indices. -/
def blocks (l : Layout) (methodName : String) : List Nat → Except LayoutError (List Block)
  | [] => .ok []
  | first :: rest => do
      let block ← l.block methodName first (rest.head?.getD l.items.length)
      let more ← l.blocks methodName rest
      return block :: more

/-- One handler of a protected range. -/
def handler (l : Layout) (handler : Option String × String) : Except LayoutError Handler := do
  let (_, block) ← l.targetBlock handler.2
  return { exceptionType := handler.1, block }

/-- The protected ranges of a listing. -/
def ranges (l : Layout) : Listing → Except LayoutError (List ProtectedRange)
  | [] => .ok []
  | .protect start stop handlers :: rest => do
      let first ← l.requireLabel start
      let last ← l.requireLabel stop
      let handlers ← handlers.mapM l.handler
      let more ← l.ranges rest
      return {
        start := UInt32.ofNat (l.offsetAt first)
        stop := UInt32.ofNat (l.offsetAt last)
        handlers } :: more
  | .label _ :: rest => l.ranges rest
  | .code .. :: rest => l.ranges rest

end Layout

namespace Listing

/-- The blocks and protected ranges of a listing. -/
def assemble (lines : Listing) (methodName : String) :
    Except LayoutError (List Block × ExceptionTable) := do
  let l := Layout.ofListing lines
  let blocks ← l.blocks methodName l.leaders
  let ranges ← l.ranges lines
  return (blocks, ⟨ranges⟩)

/-- The number of registers the operands need. -/
def usedRegisters (lines : Listing) : UInt16 :=
  let registers := lines.items.flatMap fun item => item.operands.filterMap Operand.register?
  match registers.map UInt16.toNat |>.max? with
  | some highest => UInt16.ofNat (highest + 1)
  | none => 0

end Listing

/-- A method whose body, if it has one, is given by a listing. -/
structure MethodSource where
  owner : String
  name : String
  descriptor : String
  access : AccessFlags
  /-- The size of the frame; without it, the least that holds all operands and arguments. -/
  registers : Option UInt16
  code : Option Listing

/-- Lay out a method. -/
def MethodSource.assemble (source : MethodSource) : Except LayoutError Method := do
  let method := Method.bare source.owner source.name source.descriptor source.access
  let arguments := UInt16.ofNat method.argumentWidth
  match source.code with
  | none => return { method with registers := source.registers.getD arguments }
  | some lines =>
      let used := lines.usedRegisters
      let (blocks, exceptions) ← lines.assemble source.name
      return {
        method with
        registers := source.registers.getD (max used arguments)
        blocks
        exceptions }

end Bytecode
end DalvikDecompiler
