import DalvikDecompiler.Decompiled.Class
import DalvikDecompiler.Proofs.Chains.Words
import DalvikDecompiler.Proofs.Decompiled.Dominance
import DalvikDecompiler.Proofs.Emission.Words

/-!
# The text of a class

**Input.** A class, and what is kept of its methods.

The source of a method gets into the text of its class from the syntax tree, one
step further in, or from its own text, whose lines are moved in.  No stage of
analysis brings a line break into a name, so that no line of the source is broken
up on the second way.

**Results.**
* `Stages.unbroken_ofGraph`, `Analysis.unbroken_ofMethod`: no stage brings breaks
  in.
* `DecompiledClass.methodText_ofAnalysis`: on either way, a method is written one
  step further in.
* `DecompiledClass.text_ofClass`: the text of a class does not depend on whether
  trees are kept.
-/

namespace DalvikDecompiler

open Symbolic (Variables)

/-! ## Analysis -/

/-- **The stages bring no breaks in.** -/
theorem Stages.unbroken_ofGraph
    {g : FlowGraph}
    {vars : Variables}
    {returns : String}
    (hg : g.Unbroken)
    (hv : vars.Unbroken)
    (hr : Text.Unbroken returns)
    (name : String)
    (passes : Nat) :
    let stages := Stages.ofGraph g vars returns name passes
    stages.structured.graph.Unbroken ∧ stages.vars.Unbroken := by
  obtain ⟨hsplit, hpruned, hpropagated⟩ := ofGraph_stages g vars returns name passes
  obtain ⟨hdeclared, hclean, -, hstructured⟩ := ofGraph_shapes g vars returns name passes
  have htyped : (Stages.ofGraph g vars returns name passes).vars =
      Typing.infer (Stages.ofGraph g vars returns name passes).propagated.graph returns
        (Stages.ofGraph g vars returns name passes).split.vars := by
    unfold Stages.ofGraph
    with_reducible rfl
  generalize Stages.ofGraph g vars returns name passes = stages at *
  have hsplit : stages.split.Unbroken :=
    hsplit ▸ Splitting.unbroken_run (s := { graph := g, vars, chains := .ofGraph g vars.params })
      ⟨hg, hv⟩
  have hpruned : stages.pruned.graph.Unbroken := hpruned ▸ Pruning.unbroken_run hsplit.graph _
  have hpropagated : stages.propagated.graph.Unbroken :=
    hpropagated ▸ Propagation.unbroken_run hpruned _
  have hdeclared : stages.declared.Unbroken :=
    hdeclared ▸ Declaration.unbroken_place hpropagated _ _ _
  have hclean : stages.clean.Unbroken := hclean ▸ hdeclared.splitBranches.compact.reorder
  exact ⟨hstructured ▸ hclean.structured _ _ _, htyped ▸ Typing.unbroken_infer hpropagated
    hr hsplit.vars⟩

namespace Analysis

variable {options : Options} {m : Bytecode.Method} {a : Analysis}

/-- No name in an analysed method has breaks, if no name in the method has. -/
theorem unbroken_ofMethod
    (h : m.Unbroken)
    (hfound : (ofMethod options m).result = .ok a) :
    a.graph.Unbroken ∧ a.vars.Unbroken := by
  unfold ofMethod at hfound
  dsimp only at hfound
  split at hfound
  · cases hfound
  · next graph hbuilt =>
      split at hfound
      · cases hfound
      · obtain ⟨hg, hv⟩ := FlowGraph.ofMethod_unbroken h hbuilt
        have hreturns : Text.Unbroken m.returnType := Descriptor.unbroken_returnType h.descriptor
        have hnamed := Stages.unbroken_ofGraph hg hv hreturns m.qualifiedName options.passes
        -- the stages must stay folded: what they compute is of no concern here
        generalize Stages.ofGraph graph _ m.returnType m.qualifiedName options.passes = stages
          at hfound hnamed
        obtain rfl := Except.ok.inj hfound
        exact hnamed

end Analysis

/-! ## Text -/

namespace DecompiledClass

variable {options : Options} {m : Bytecode.Method} {a : Analysis}

theorem methodText_of_tree
    {d : DecompiledMethod}
    {tree : Java.Method}
    (h : d.tree = some tree) :
    methodText m (.decompiled d) = tree.render 1 := by
  unfold methodText
  dsimp only
  rw [h]

theorem methodText_of_text
    {d : DecompiledMethod}
    {text : String}
    (hnoTree : d.tree = none)
    (h : d.text = some text) :
    methodText m (.decompiled d) =
      String.join ((Text.lines text).map fun l => "    " ++ l ++ "\n") := by
  unfold methodText
  dsimp only
  rw [hnoTree, h]

/-- **A method is written one step further in inside of its class**, from its tree or from its
text. -/
theorem methodText_ofAnalysis
    (options : Options)
    (hkept : options.keepTree = true ∨ options.keepText = true)
    (hm : m.Unbroken)
    (hg : a.graph.Unbroken)
    (hv : a.vars.Unbroken) :
    methodText m (.decompiled (.ofAnalysis options m a)) =
      (Emission.emit { method := m, skipSuper := options.skipSuper } a.graph a.vars
        .empty).method.render 1 := by
  have hwritten := Emission.unbroken_emit (w := { method := m, skipSuper := options.skipSuper }) hm
    hg hv .empty
  cases htree : options.keepTree with
  | true => exact methodText_of_tree (if_pos htree)
  | false =>
      have htext : options.keepText = true := hkept.resolve_left (by simp [htree])
      have hnoTree : ¬options.keepTree = true := by simp [htree]
      rw [Java.Method.render_succ hwritten 0]
      exact methodText_of_text (if_neg hnoTree) (if_pos htext)

/-- What stands for a method in its class depends on what is kept of it only as long as nothing
is. -/
theorem methodText_ofMethod
    (htext : options.keepText = true)
    (hm : m.Unbroken) :
    methodText m (MethodResult.ofMethod { options with keepTree := true } m).1 =
      methodText m (MethodResult.ofMethod { options with keepTree := false } m).1 := by
  have hanalysed (keepTree : Bool) :
      Analysis.ofMethod { options with keepTree } m = Analysis.ofMethod options m := by
    unfold Analysis.ofMethod Options.isOutOfTime
    with_reducible rfl
  unfold MethodResult.ofMethod DecompiledMethod.ofMethod
  split
  · simp only [hanalysed]
    cases hfound : (Analysis.ofMethod options m).result with
    | error e => rfl
    | ok a =>
        obtain ⟨hg, hv⟩ := Analysis.unbroken_ofMethod hm hfound
        calc methodText m (.decompiled (.ofAnalysis { options with keepTree := true } m a))
          _ = (Emission.emit { method := m, skipSuper := options.skipSuper } a.graph a.vars
                .empty).method.render 1 := methodText_ofAnalysis _ (.inl rfl) hm hg hv
          _ = methodText m (.decompiled (.ofAnalysis { options with keepTree := false } m a)) :=
                (methodText_ofAnalysis { options with keepTree := false } (.inr htext)
                  hm hg hv).symm
  · rfl

/-- The text of a class depends on what stands in it for each of its methods. -/
theorem textOf_congr
    {c : Bytecode.Class}
    {output output' : Bytecode.Method → MethodResult}
    (hsame : ∀ m ∈ c.methods, methodText m (output m) = methodText m (output' m)) :
    textOf c (c.methods.map output) = textOf c (c.methods.map output') := by
  have hmethods : ((c.methods.zip (c.methods.map output)).map fun entry =>
        "\n" ++ methodText entry.1 entry.2) =
      (c.methods.zip (c.methods.map output')).map fun entry =>
        "\n" ++ methodText entry.1 entry.2 := by
    simp only [← List.map_prod_left_eq_zip, List.map_map]
    exact List.map_congr_left fun m hmem => congrArg ("\n" ++ ·) (hsame m hmem)
  unfold textOf
  dsimp only
  rw [hmethods]

/-- **The text of a class does not depend on the mode of output.**  Take a class without line feeds
and carriage returns in the names and types of its methods, and let texts be kept.  The class has
the same text whether trees are kept, so that methods are written from them, or not, so that the
lines of their texts are moved in.  This is because four blanks in front of every line are all that
a greater depth adds to the source of any method without such characters. -/
theorem text_ofClass
    {c : Bytecode.Class}
    (htext : options.keepText = true)
    (hunbroken : ∀ m ∈ c.methods, m.Unbroken) :
    (ofClass { options with keepTree := true } c).1.text =
        (ofClass { options with keepTree := false } c).1.text ∧
      ∀ method : Java.Method, method.Unbroken → ∀ depth,
        method.render (depth + 1) =
          String.join ((Text.lines (method.render depth)).map fun l => "    " ++ l ++ "\n") := by
  refine ⟨?_, fun method h => method.render_succ h⟩
  simp only [ofClass, List.map_map]
  exact textOf_congr fun m hmem => methodText_ofMethod htext (hunbroken m hmem)

/-- A class whose only method calls another one and handles its exceptions. -/
def protectedClass : Bytecode.Class :=
  { descriptor := "LT;"
    access := ⟨0⟩
    superclass := some Bytecode.objectDescriptor
    interfaces := []
    fields := []
    methods := [Analysis.protectedCall] }

theorem unbroken_protectedCall :
    Analysis.protectedCall.Unbroken := by
  refine ⟨by decide, by decide, by decide, ?_, ?_⟩
  · simp only [Analysis.protectedCall, Bytecode.Instruction.Unbroken, List.forall_mem_cons]
    decide
  · simp only [Analysis.protectedCall, List.forall_mem_cons]
    decide

theorem text_ofClass_protectedClass :
    Options.standard.keepText = true ∧ (∀ m ∈ protectedClass.methods, m.Unbroken) ∧
      (ofClass { Options.standard with keepTree := true } protectedClass).1.text =
        (ofClass { Options.standard with keepTree := false } protectedClass).1.text :=
  have hunbroken : ∀ m ∈ protectedClass.methods, m.Unbroken :=
    List.forall_mem_singleton.2 unbroken_protectedCall
  ⟨rfl, hunbroken, (text_ofClass rfl hunbroken).1⟩

end DecompiledClass

end DalvikDecompiler
