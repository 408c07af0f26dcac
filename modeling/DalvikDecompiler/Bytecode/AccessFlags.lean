import DalvikDecompiler.Text

/-!
# Access flags

**Input.** The access word of a class, a method or a field.  Two bits have two
names each, one for methods and one for fields.

**Algorithm.** As text, a word is the names of its bits in the order of the
table, each bit once, joined by bars, and what has no name as one hexadecimal
number at the end.  Reading accepts all names of the table.
-/

namespace DalvikDecompiler

/-- An access word. -/
structure AccessFlags where
  bits : UInt32
  deriving DecidableEq, Repr

namespace AccessFlags

/-- The word without bits. -/
def empty : AccessFlags :=
  ⟨0⟩

def publicBit : UInt32 := 0x1
def privateBit : UInt32 := 0x2
def protectedBit : UInt32 := 0x4
def staticBit : UInt32 := 0x8
def finalBit : UInt32 := 0x10
def synchronizedBit : UInt32 := 0x20
def volatileBit : UInt32 := 0x40
def bridgeBit : UInt32 := 0x40
def transientBit : UInt32 := 0x80
def varargsBit : UInt32 := 0x80
def nativeBit : UInt32 := 0x100
def interfaceBit : UInt32 := 0x200
def abstractBit : UInt32 := 0x400
def strictBit : UInt32 := 0x800
def syntheticBit : UInt32 := 0x1000
def annotationBit : UInt32 := 0x2000
def enumBit : UInt32 := 0x4000
def constructorBit : UInt32 := 0x10000
def declaredSynchronizedBit : UInt32 := 0x20000

/-- The names of the bits.  Of the two names of a bit the first one is written. -/
def names : List (String × UInt32) :=
  [("PUBLIC", publicBit), ("PRIVATE", privateBit), ("PROTECTED", protectedBit),
    ("STATIC", staticBit), ("FINAL", finalBit), ("SYNCHRONIZED", synchronizedBit),
    ("VOLATILE", volatileBit), ("BRIDGE", bridgeBit), ("TRANSIENT", transientBit),
    ("VARARGS", varargsBit), ("NATIVE", nativeBit), ("INTERFACE", interfaceBit),
    ("ABSTRACT", abstractBit), ("STRICT", strictBit), ("SYNTHETIC", syntheticBit),
    ("ANNOTATION", annotationBit), ("ENUM", enumBit), ("CONSTRUCTOR", constructorBit),
    ("DECLARED_SYNCHRONIZED", declaredSynchronizedBit)]

/-- Whether a bit is set. -/
def contains (flags : AccessFlags) (bit : UInt32) : Bool :=
  flags.bits &&& bit == bit

/-- The words of the texts whose bit is set, a text that is there already left out. -/
def select (flags : AccessFlags) (table : List (UInt32 × String)) : List String :=
  table.foldl
    (fun words entry =>
      if flags.contains entry.1 && !words.contains entry.2 then words ++ [entry.2] else words)
    []

/-- The keywords of visibility. -/
def visibility : List (UInt32 × String) :=
  [(publicBit, "public"), (privateBit, "private"), (protectedBit, "protected")]

/-- The keywords in front of a method. -/
def methodModifiers (flags : AccessFlags) : List String :=
  flags.select <| visibility ++
    [(staticBit, "static"), (finalBit, "final"), (synchronizedBit, "synchronized"),
      (bridgeBit, "bridge"), (varargsBit, "varargs"), (nativeBit, "native"),
      (abstractBit, "abstract"), (strictBit, "strictfp"), (syntheticBit, "synthetic"),
      (declaredSynchronizedBit, "synchronized")]

/-- The keywords in front of a field. -/
def fieldModifiers (flags : AccessFlags) : List String :=
  flags.select <| visibility ++
    [(staticBit, "static"), (finalBit, "final"), (volatileBit, "volatile"),
      (transientBit, "transient"), (syntheticBit, "synthetic"), (enumBit, "enum")]

/-- The keywords in front of a class; an enumeration is final and an interface abstract without
saying so. -/
def classModifiers (flags : AccessFlags) : List String :=
  flags.select (visibility ++ [(staticBit, "static")]) ++
    (if flags.contains finalBit && !flags.contains enumBit then ["final"] else []) ++
    (if flags.contains abstractBit && !flags.contains interfaceBit then ["abstract"] else [])

/-- The keyword that says what kind of class it is. -/
def classWord (flags : AccessFlags) : String :=
  if flags.contains annotationBit then "@interface"
  else if flags.contains interfaceBit then "interface"
  else if flags.contains enumBit then "enum"
  else "class"

/-- The names of the set bits among `rest`, each bit once, and the bits without a name. -/
def namesOf : List (String × UInt32) → UInt32 → List String × UInt32
  | [], rest => ([], rest)
  | (name, bit) :: table, rest =>
      if rest &&& bit == bit then
        let (names, left) := namesOf table (rest &&& ~~~bit)
        (name :: names, left)
      else
        namesOf table rest

/-- The text of an access word. -/
def text (flags : AccessFlags) : String :=
  let (set, rest) := namesOf names flags.bits
  Text.joinWith " | " (set ++ if rest == 0 then [] else [Text.hex rest.toNat])

/-- The bits that one part of a text stands for. -/
def partBits? (part : List Char) : Option UInt32 :=
  match part with
  | '0' :: 'x' :: digits =>
      match Text.readHex? digits with
      | some n => if n < 4294967296 then some (UInt32.ofNat n) else none
      | none => none
  | _ => names.lookup (String.ofList part)

/-- Read the text of an access word. -/
def ofText? (text : String) : Option AccessFlags :=
  match Text.trimChars text.toList with
  | [] => some empty
  | trimmed =>
      let parts := (Text.splitAt '|' trimmed).map Text.trimChars
      (parts.mapM partBits?).map fun bits => ⟨bits.foldl (· ||| ·) 0⟩

end AccessFlags
end DalvikDecompiler
