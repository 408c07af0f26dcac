import DalvikDecompiler.Emission.Body

/-!
# Methods as Java

**Input.** A method, its structured flow graph and its variables.

**Algorithm.** The body is written once to find out where gotos lead.  If
there are any, it is written again with labels in these places, and a comment
says so.
-/

namespace DalvikDecompiler
namespace Emission

open Symbolic (Variables)

/-- The signature of a method. -/
def header (m : Bytecode.Method) : Java.Method :=
  { member := .of m.owner m.name m.descriptor
    flags := m.access.methodModifiers
    returns := .ofDescriptor m.returnType
    params := m.argumentRegisters.filterMap fun (register, type) =>
      type.map fun type =>
        { type := .ofDescriptor type, name := "p" ++ toString register.toNat }
    comments := []
    body := none }

/-- The types that a signature names. -/
def headerMentions (m : Bytecode.Method) : List String :=
  (m.argumentRegisters.filterMap Prod.snd ++ [m.returnType]).map mentionOf

/-- A method that has been written. -/
structure Result where
  method : Java.Method
  vars : Variables
  visited : List NodeId
  naming : Java.Naming
  /-- Whether the walk led to a slot that does not exist. -/
  dangling : Bool

/-- What a method says about its gotos. -/
def gotoComment : String :=
  "Unstructured control flow kept as goto"

/-- Write a method, given the types that have been named before. -/
def emit (w : Writing) (graph : FlowGraph) (vars : Variables) (naming : Java.Naming) : Result :=
  let naming := naming.learnAll (headerMentions w.method)
  let write (labels : List NodeId) (naming : Java.Naming) : Java.Block × Progress :=
    (Source.body { writing := w, graph, labels }).run (.start vars naming)
  let complete (comments : List String) (written : Java.Block × Progress) : Result :=
    { method := { header w.method with comments, body := some written.1 }
      vars := written.2.vars
      visited := written.2.visited
      naming := written.2.naming
      dangling := written.2.dangling }
  let first := write [] naming
  if first.2.gotoTargets.isEmpty then
    complete [] first
  else
    complete [gotoComment] (write first.2.gotoTargets first.2.naming)

end Emission
end DalvikDecompiler
