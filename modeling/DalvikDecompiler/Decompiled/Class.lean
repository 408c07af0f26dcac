import DalvikDecompiler.Bytecode.Class
import DalvikDecompiler.Decompiled.Analysis
import DalvikDecompiler.Emission.Method
import DalvikDecompiler.Java.Format
import DalvikDecompiler.Java.Source
import DalvikDecompiler.Json.Printer
import DalvikDecompiler.Text

/-!
# Decompiled code

Methods, and the classes that hold them.
-/

/-!
## Decompiled methods

**Input.** A method and how to decompile it.

A method with a body is analysed and written.  One without a body has only its
signature.
-/

namespace DalvikDecompiler

/-- A decompiled method. -/
structure DecompiledMethod where
  descriptor : String
  tree : Option Java.Method
  text : Option String
  summary : StructureCounts

namespace DecompiledMethod

/-- Write an analysed method. -/
def ofAnalysis (options : Options) (m : Bytecode.Method) (a : Analysis) : DecompiledMethod :=
  let written :=
    (Emission.emit { method := m, skipSuper := options.skipSuper } a.graph a.vars .empty).method
  { descriptor := m.qualifiedName
    tree := if options.keepTree then some written else none
    text := if options.keepText then some (written.render 0) else none
    summary := a.summary }

/-- Decompile a method. -/
def ofMethod (options : Options) (m : Bytecode.Method) : Outcome DecompiledMethod :=
  let analysed := Analysis.ofMethod options m
  { result := analysed.result.map (ofAnalysis options m), events := analysed.events }

/-- The syntax tree as indented text. -/
def treeText (d : DecompiledMethod) : Option String :=
  d.tree.map fun m => m.toJson.pretty 0

end DecompiledMethod

/-- What becomes of a method of a class. -/
inductive MethodResult where
  | decompiled (method : DecompiledMethod)
  /-- A method without a body. -/
  | noCode (signature : Java.Method)
  | failed (descriptor : String) (error : DecompileError)

namespace MethodResult

/-- Whether decompilation failed. -/
def isFailed : MethodResult → Bool
  | .failed .. => true
  | _ => false

/-- The output of a method, and the events on the way to it. -/
def ofMethod (options : Options) (m : Bytecode.Method) : MethodResult × EventLog :=
  if m.hasBody then
    let outcome := DecompiledMethod.ofMethod options m
    match outcome.result with
    | .ok method => (.decompiled method, outcome.events)
    | .error e =>
        (.failed m.qualifiedName e,
          outcome.events.record
            { kind := .methodFailed
              message := e.text
              method := some m.qualifiedName
              offset := none })
  else
    (.noCode (Emission.header m), [])

end MethodResult

end DalvikDecompiler

/-!
## Decompiled classes

**Input.** A class and how to decompile its methods.

**Algorithm.** Methods are decompiled one after another.  The text of the
class has its package, its prototype, its fields and its methods; one that
failed is a comment.
-/

namespace DalvikDecompiler

/-- A decompiled class. -/
structure DecompiledClass where
  descriptor : String
  text : String
  tree : Option Java.Class
  methods : List MethodResult

namespace DecompiledClass

/-- A field. -/
def field (f : Bytecode.Field) : Java.Field :=
  { name := f.name
    type := .ofDescriptor f.descriptor
    flags := f.access.fieldModifiers
    value := f.value.map Bytecode.FieldValue.javaText }

/-- The syntax trees of the methods that have one. -/
def methodTree? : MethodResult → Option Java.Method
  | .decompiled method => method.tree
  | .noCode signature => some signature
  | .failed .. => none

/-- The syntax tree of a class. -/
def treeOf (c : Bytecode.Class) (outputs : List MethodResult) : Java.Class :=
  { descriptor := c.descriptor
    name := Descriptor.javaName c.descriptor
    superclass := c.superclass.map Descriptor.javaName
    flags := c.access.classModifiers
    isInterface := c.isInterface
    interfaces := c.interfaces.map Descriptor.javaName
    fields := c.fields.map field
    methods := outputs.filterMap methodTree? }

/-- A clause of a prototype with the names of types, unless there are none. -/
def clause (keyword : String) (types : List String) : List String :=
  if types.isEmpty then
    []
  else
    [keyword ++ " " ++ Text.joinWith ", " (types.map Descriptor.javaName)]

/-- The words in front of the body of a class.  The class at the top of the hierarchy is not
named. -/
def prototype (c : Bytecode.Class) : String :=
  let supers :=
    if c.isInterface then
      clause "extends" c.interfaces
    else
      clause "extends" (c.superclass.filter fun s => s != Bytecode.objectDescriptor).toList ++
        clause "implements" c.interfaces
  Text.joinWith " "
    (c.access.classModifiers ++ [c.access.classWord, (Descriptor.packageAndName c.descriptor).2] ++
      supers)

/-- The line of a field. -/
def fieldLine (f : Java.Field) : String :=
  let words := Text.joinWith " " (f.flags ++ [f.type.spelling, f.name])
  match f.value with
  | some value => "    " ++ words ++ " = " ++ value ++ ";\n"
  | none => "    " ++ words ++ ";\n"

/-- The text of a method inside of a class. -/
def methodText (m : Bytecode.Method) : MethodResult → String
  | .decompiled method =>
      match method.tree, method.text with
      | some tree, _ => tree.render 1
      | none, some text => String.join ((Text.lines text).map fun l => "    " ++ l ++ "\n")
      | none, none => (Emission.header m).render 1
  | .noCode signature => signature.render 1
  | .failed descriptor e => "    // Failed to decompile " ++ descriptor ++ ": " ++ e.text ++ "\n"

/-- The text of a class. -/
def textOf (c : Bytecode.Class) (outputs : List MethodResult) : String :=
  let package := (Descriptor.packageAndName c.descriptor).1
  let fields := c.fields.map field
  (if package.isEmpty then "" else "package " ++ package ++ ";\n\n") ++
    prototype c ++ " \x7b\n" ++
    (if fields.isEmpty then "" else "\n") ++
    String.join (fields.map fieldLine) ++
    String.join ((c.methods.zip outputs).map fun (m, output) => "\n" ++ methodText m output) ++
    "\x7d\n"

/-- Decompile a class, and give the events of its methods in order. -/
def ofClass (options : Options) (c : Bytecode.Class) : DecompiledClass × EventLog :=
  let results := c.methods.map (MethodResult.ofMethod options)
  let outputs := results.map Prod.fst
  ({ descriptor := c.descriptor
     text := textOf c outputs
     tree := if options.keepTree then some (treeOf c outputs) else none
     methods := outputs },
    results.flatMap Prod.snd)

/-- The methods that failed. -/
def failures (d : DecompiledClass) : List MethodResult :=
  d.methods.filter MethodResult.isFailed

end DecompiledClass

end DalvikDecompiler
