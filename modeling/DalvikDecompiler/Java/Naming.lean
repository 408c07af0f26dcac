import DalvikDecompiler.Java.Ast

/-!
# Known type names

A table of the descriptors whose Java names have been asked for, so that each
name is made once.  The name given for a descriptor never depends on the
table.
-/

namespace DalvikDecompiler
namespace Java

/-- The descriptors that are known, with their Java names, in the order in which they came. -/
structure Naming where
  known : List (String × String)
  deriving DecidableEq, Repr

namespace Naming

/-- No descriptor is known. -/
def empty : Naming :=
  ⟨[]⟩

/-- Make a descriptor known. -/
def learn (naming : Naming) (descriptor : String) : Naming :=
  match naming.known.lookup descriptor with
  | some _ => naming
  | none => ⟨naming.known ++ [(descriptor, Descriptor.javaName descriptor)]⟩

/-- Make several descriptors known. -/
def learnAll (naming : Naming) (descriptors : List String) : Naming :=
  descriptors.foldl learn naming

/-- The Java name of a descriptor, which is known from then on. -/
def nameOf (naming : Naming) (descriptor : String) : String × Naming :=
  match naming.known.lookup descriptor with
  | some name => (name, naming)
  | none => (Descriptor.javaName descriptor, naming.learn descriptor)

/-- The number of descriptors that are known. -/
def size (naming : Naming) : Nat :=
  naming.known.length

end Naming

end Java
end DalvikDecompiler
