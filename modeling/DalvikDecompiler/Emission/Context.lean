import DalvikDecompiler.Digraph.Basic
import DalvikDecompiler.Java.Ast

/-!
# The surroundings of the code being written

**Input.** The statements that are open around a place in the code, with the
nodes that have a meaning there: where branches, switches, loops and protected
regions end, the latch of a loop and the node that a loop continues with.

For each of these meanings a stack is kept, of which only the top counts.
-/

namespace DalvikDecompiler
namespace Emission

/-- What a node may mean to the statements around a place. -/
inductive Marker where
  | branchEnd | switchEnd | loopEnd | latch | regionEnd | loopStart
  deriving DecidableEq, Repr

/-- The nodes with a meaning, the innermost statement first. -/
structure Context where
  stack : Marker → List (Option NodeId)

namespace Context

/-- Outside of all statements no node has a meaning. -/
def outermost : Context :=
  ⟨fun _ => [none]⟩

/-- The node with a meaning to the innermost statement. -/
def top (ctx : Context) (m : Marker) : Option NodeId :=
  (ctx.stack m).head?.join

/-- Replace the stack of a meaning. -/
def setStack (ctx : Context) (m : Marker) (nodes : List (Option NodeId)) : Context :=
  ⟨fun other => if other = m then nodes else ctx.stack other⟩

/-- Enter a statement that gives a node a meaning. -/
def push (ctx : Context) (m : Marker) (node : Option NodeId) : Context :=
  ctx.setStack m (node :: ctx.stack m)

/-- Leave a statement. -/
def pop (ctx : Context) (m : Marker) : Context :=
  ctx.setStack m (ctx.stack m).tail

/-- Whether going to a node continues the loop: unless it ends something else as well. -/
def continuesLoop (ctx : Context) (node : NodeId) : Bool :=
  ctx.top .loopStart == some node &&
    [Marker.branchEnd, .switchEnd, .regionEnd].all fun m => ctx.top m != some node

/-- Whether the code of a node is written elsewhere, behind one of the statements around. -/
def isWrittenBehind (ctx : Context) (node : NodeId) : Bool :=
  [Marker.branchEnd, .switchEnd, .loopEnd, .latch, .regionEnd].any fun m =>
    ctx.top m == some node

end Context

/-- Blocks under construction, the innermost one first. -/
structure Outline where
  blocks : List Java.Block

namespace Outline

/-- No block is open. -/
def empty : Outline :=
  ⟨[]⟩

/-- Open a block. -/
def openBlock (o : Outline) : Outline :=
  ⟨[] :: o.blocks⟩

/-- Add a statement to the innermost block, if one is open. -/
def add (o : Outline) (s : Java.Statement) : Outline :=
  match o.blocks with
  | [] => o
  | block :: rest => ⟨(block ++ [s]) :: rest⟩

/-- Close the innermost block; without one, the result is empty. -/
def closeBlock (o : Outline) : Java.Block × Outline :=
  match o.blocks with
  | [] => ([], o)
  | block :: rest => (block, ⟨rest⟩)

end Outline

end Emission
end DalvikDecompiler
