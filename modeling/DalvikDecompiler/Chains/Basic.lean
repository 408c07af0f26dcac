import DalvikDecompiler.Chains.Reaching

/-!
# Chains of definitions and uses

**Input.** Variables, the places that define them and the places that read
them.

Links are kept in both directions: from a use to the definitions that may
supply it and from a definition to its uses.  A place without links has no
entry.
-/

namespace DalvikDecompiler

open Symbolic (VarId)

/-- Places that each variable is linked with at a place. -/
abbrev LinkMap := List (DefSite × List Loc)

namespace LinkMap

/-- The places linked with a site. -/
def linked (m : LinkMap) (site : DefSite) : List Loc :=
  (m.lookup site).getD []

/-- Link a place with a site, unless it is linked already. -/
def add (m : LinkMap) (site : DefSite) (loc : Loc) : LinkMap :=
  OrderedMap.insert site (OrderedSet.insert (m.linked site) loc) m

/-- Link a place with a site, behind those linked so far. -/
def push (m : LinkMap) (site : DefSite) (loc : Loc) : LinkMap :=
  OrderedMap.insert site (m.linked site ++ [loc]) m

/-- Drop a link, and the site with its last link. -/
def drop (m : LinkMap) (site : DefSite) (loc : Loc) : LinkMap :=
  match m.lookup site with
  | none => m
  | some locs =>
      match OrderedSet.erase locs loc with
      | [] => OrderedMap.erase site m
      | rest => OrderedMap.insert site rest m

end LinkMap

/-- Chains of definitions and uses. -/
structure Chains where
  /-- The definitions that may supply a use. -/
  defsAt : LinkMap
  /-- The uses of a definition. -/
  usesAt : LinkMap
  deriving Repr

namespace Chains

/-- No chains. -/
def empty : Chains :=
  { defsAt := [], usesAt := [] }

/-- The definitions of a variable that may supply a use. -/
def defs (c : Chains) (v : VarId) (use : Loc) : List Loc :=
  c.defsAt.linked (v, use)

/-- The uses that a definition of a variable may supply. -/
def uses (c : Chains) (v : VarId) (definition : Loc) : List Loc :=
  c.usesAt.linked (v, definition)

/-- Whether a definition has a use. -/
def isUsed (c : Chains) (v : VarId) (definition : Loc) : Bool :=
  !(c.uses v definition).isEmpty

/-- Link a definition and a use. -/
def link (c : Chains) (v : VarId) (definition use : Loc) : Chains :=
  { defsAt := c.defsAt.add (v, use) definition
    usesAt := c.usesAt.add (v, definition) use }

/-- Take the link between a definition and a use away. -/
def unlink (c : Chains) (v : VarId) (definition use : Loc) : Chains :=
  { defsAt := c.defsAt.drop (v, use) definition
    usesAt := c.usesAt.drop (v, definition) use }

/-- Take all links of a use away. -/
def forgetUse (c : Chains) (v : VarId) (use : Loc) : Chains :=
  (c.defs v use).foldl (fun c definition => c.unlink v definition use) c

/-- Take all links of a use away, and give the definitions that it was linked with. -/
def takeUse (c : Chains) (v : VarId) (use : Loc) : List Loc × Chains :=
  (c.defs v use, c.forgetUse v use)

/-- Let a use refer to a definition under another name. -/
def reassignAt (old new : VarId) (definition : Loc) (defsAt : LinkMap) (use : Loc) : LinkMap :=
  (defsAt.drop (old, use) definition).push (new, use) definition

/-- Let a definition with its uses count as one of another variable. -/
def reassign (c : Chains) (old : VarId) (definition : Loc) (new : VarId) : Chains :=
  match c.usesAt.lookup (old, definition) with
  | none => c
  | some uses =>
      { defsAt := uses.foldl (reassignAt old new definition) c.defsAt
        usesAt := OrderedMap.insert (new, definition) uses
          (OrderedMap.erase (old, definition) c.usesAt) }

/-- Variables first, then places, in increasing order. -/
def siteLe (a b : DefSite) : Bool :=
  a.1 < b.1 || (a.1 == b.1 && decide (a.2 ≤ b.2))

/-- The definitions with a use, ordered by variable and place. -/
def definitionsInUse (c : Chains) : List DefSite :=
  (c.usesAt.map Prod.fst).mergeSort siteLe

/-- The number of uses with a definition. -/
def suppliedUses (c : Chains) : Nat :=
  c.defsAt.length

/-- Link an instruction with the definitions of the variables that it reads. -/
def linkUses (g : FlowGraph) (r : Reaching) (id : NodeId) (c : Chains)
    (entry : (Symbolic.Instr × Loc) × Nat) : Chains :=
  let ((ins, loc), position) := entry
  ins.varsRead.foldl
    (fun c v =>
      (r.supplying g v id position).foldl (fun c definition => c.link v definition loc) c)
    c

/-- The chains of a flow graph. -/
def ofGraph (g : FlowGraph) (params : List VarId) : Chains :=
  let r := Reaching.compute g params
  g.order.foldl
    (fun c id =>
      let n := g.node id
      (n.ins.zip n.locs).zipIdx.foldl (linkUses g r id) c)
    empty

end Chains

end DalvikDecompiler
