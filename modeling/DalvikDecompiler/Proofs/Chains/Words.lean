import DalvikDecompiler.Chains.Typing
import DalvikDecompiler.Proofs.Chains.Amending
import DalvikDecompiler.Proofs.Chains.Moves
import DalvikDecompiler.Proofs.FlowGraph.Words

/-!
# Names and the rewriting of code

**Input.** A flow graph and its variables, without line breaks in any name.

Splitting puts variables in the place of others.  A value that moves was read off
an instruction of the same graph.  Inference gives variables the types that
instructions name, and a few that are fixed.

**Results.**
* `Splitting.unbroken_run`, `Pruning.unbroken_run`, `Propagation.unbroken_run`:
  the passes over instructions bring no breaks in.
* `Typing.unbroken_infer`: neither does inference.
* `Declaration.unbroken_place`: nor do declarations.
-/

namespace DalvikDecompiler

open Symbolic (VarId Variables Expr Instr)

/-! ## Passes over instructions -/

namespace Splitting

variable {s : Splitting}

/-- No name in the code or the variables has breaks. -/
structure Unbroken (s : Splitting) : Prop where
  graph : s.graph.Unbroken
  vars : s.vars.Unbroken

theorem Unbroken.rename
    (h : s.Unbroken)
    (old new : VarId)
    (web : Web) :
    (s.rename old new web).Unbroken := by
  have hdefined : (web.defs.foldl (fun g definition =>
      g.modifyInstr definition fun ins => ins.replaceTarget new) s.graph).Unbroken :=
    h.graph.foldl fun _ _ hg => hg.modifyInstr fun _ hins => hins.replaceTarget new
  refine ⟨?_, h.vars⟩
  exact hdefined.foldl fun _ _ hg =>
    hg.modifyInstr fun _ hins => hins.substitute (Expr.unbroken_var new) old

theorem Unbroken.separate
    (h : s.Unbroken)
    (v : VarId)
    (entry : Web × Nat) :
    (separate v s entry).Unbroken := by
  unfold Splitting.separate
  dsimp only
  split
  · exact h
  · refine Unbroken.rename ?_ v _ entry.1
    exact ⟨h.graph, (h.vars.addSplit v entry.2).modify fun _ => nofun⟩

theorem unbroken_run
    (h : s.Unbroken) :
    s.run.2.Unbroken := by
  refine List.foldlRecOn _ _ h fun s hs entry _ => ?_
  exact List.foldlRecOn _ _ hs fun s hs web _ => hs.separate entry.1 web

end Splitting

namespace Pruning

theorem unbroken_removeDead
    (depth : Nat)
    {s : Pruning}
    (h : s.graph.Unbroken)
    (loc : Loc) :
    (removeDead depth s loc).graph.Unbroken := by
  induction depth generalizing s loc with
  | zero => exact h
  | succ depth ih =>
      unfold removeDead
      split
      · exact h
      · split
        · exact h.modifyInstr fun _ hins => hins.dropTarget
        split
        · exact h
        · refine List.foldlRecOn (motive := fun s : Pruning => s.graph.Unbroken) _ _ h.removeInstr
            fun s hs v _ => ?_
          refine List.foldlRecOn (motive := fun s : Pruning => s.graph.Unbroken) _ _ hs
            fun s hs definition _ => ?_
          split
          · exact ih hs definition
          · exact hs

theorem unbroken_run
    {g : FlowGraph}
    (h : g.Unbroken)
    (chains : Chains) :
    (run g chains).graph.Unbroken := by
  refine List.foldlRecOn (motive := fun s : Pruning => s.graph.Unbroken) _ _ h fun s hs id _ => ?_
  refine List.foldlRecOn (motive := fun s : Pruning => s.graph.Unbroken) _ _ hs fun s hs loc _ => ?_
  unfold removeUnused
  split
  · exact hs
  · split
    · exact hs
    · exact unbroken_removeDead _ hs loc

end Pruning

namespace Propagation

variable {s s' : Propagation} {use : Loc} {ins : Instr} {move : Move}

/-- A value that moves stands in the code. -/
theorem Allowed.unbroken_value
    (hallowed : s.Allowed use ins move)
    (h : s.graph.Unbroken) :
    move.value.Unbroken := by
  obtain ⟨definition, hthere, -, hread⟩ := hallowed.assigns
  exact (h.instrAt hthere).value? move.value hread

theorem unbroken_apply
    (h : s.graph.Unbroken)
    (hvalue : move.value.Unbroken) :
    (s.apply use move).graph.Unbroken := by
  have hmoved : (s.graph.modifyInstr use
      fun ins => ins.substitute move.target move.value).Unbroken :=
    h.modifyInstr fun _ hins => hins.substitute hvalue move.target
  unfold apply
  dsimp only
  split
  · exact hmoved
  · exact hmoved.removeInstr

theorem Steps.unbroken
    {moves : List (Loc × Move)}
    (hsteps : Steps s moves s')
    (h : s.graph.Unbroken) :
    s'.graph.Unbroken := by
  induction hsteps with
  | none s => exact h
  | next hallowed _ ih => exact ih (unbroken_apply h (hallowed.unbroken_value h))

theorem unbroken_run
    {g : FlowGraph}
    (h : g.Unbroken)
    (chains : Chains) :
    (run g chains).graph.Unbroken := by
  obtain ⟨moves, hsteps⟩ := run_steps g chains
  exact hsteps.unbroken h

end Propagation

theorem Declaration.unbroken_place
    {g : FlowGraph}
    (h : g.Unbroken)
    (vars : Variables)
    (c : Chains)
    (tree : DominatorTree) :
    (place g vars c tree).Unbroken :=
  place_induction h (fun _ _ v hg => hg.modifyNode fun _ hn => hn.declareAll [v]) vars c tree

/-! ## Types -/

namespace Typing

variable {vars : Variables} {e : Expr} {ins : Instr} {returns : String} {catchType : Option String}

theorem unbroken_throwable :
    Text.Unbroken throwable := by
  decide

theorem unbroken_suggestFor
    (h : vars.Unbroken)
    (e : Expr)
    {type : String}
    (ht : Text.Unbroken type) :
    (suggestFor vars e type).Unbroken := by
  unfold suggestFor
  split
  · exact h.suggestType ht _
  · exact h

theorem unbroken_suggestAll
    (h : vars.Unbroken)
    {hints : List (Expr × String)}
    (ht : ∀ hint ∈ hints, Text.Unbroken hint.2) :
    (suggestAll vars hints).Unbroken :=
  List.foldlRecOn _ _ h fun _ hvars hint hmem => unbroken_suggestFor hvars hint.1 (ht hint hmem)

/-- The types of operands are named in an operation, or fixed. -/
theorem unbroken_operandTypes
    (hown : ∀ t ∈ e.ownWords, Text.Unbroken t) :
    ∀ hint ∈ operandTypes e, Text.Unbroken hint.2 := by
  have hint' : Text.Unbroken "I" := by decide
  have harguments (method : Bytecode.MethodRef) (args : List Expr)
      (hm : ∀ t ∈ method.words, Text.Unbroken t) :
      ∀ hint ∈ args.zip method.params, Text.Unbroken hint.2 := fun hint hmem =>
    Descriptor.unbroken_params (hm method.descriptor (by simp [Bytecode.MethodRef.words])) hint.2
      (List.of_mem_zip (a := hint.1) hmem).2
  intro hint hmem
  cases e with
  | staticCall method args => exact harguments method args hown hint hmem
  | call dispatch method receiver args =>
      rcases List.mem_cons.1 hmem with rfl | hmem
      · exact hown method.owner List.mem_cons_self
      · exact harguments method args hown hint hmem
  | binary op left right type =>
      have htyped : Text.Unbroken type := hown type List.mem_cons_self
      rcases List.mem_pair.1 hmem with rfl | rfl
      · exact htyped
      · change Text.Unbroken (op.rightType type)
        unfold Symbolic.BinaryOp.rightType
        split
        · exact hint'
        · exact htyped
  | unary op operand type =>
      obtain rfl := List.mem_singleton.1 hmem
      exact hown type List.mem_cons_self
  | compare type left right =>
      rcases List.mem_pair.1 hmem with rfl | rfl <;> exact hown type List.mem_cons_self
  | fieldRead object field =>
      obtain rfl := List.mem_singleton.1 hmem
      exact hown field.owner List.mem_cons_self
  | arrayRead | newArray =>
      obtain rfl := List.mem_singleton.1 hmem
      exact hint'
  | filledArray type elements =>
      obtain ⟨element, -, rfl⟩ := List.mem_map.1 hmem
      exact Descriptor.unbroken_elementOrSelf (hown type List.mem_cons_self)
  | _ => cases hmem

theorem unbroken_suggestOperands
    (h : vars.Unbroken)
    (he : e.Unbroken) :
    (suggestOperands vars e).Unbroken :=
  List.foldlRecOn _ _ h fun _ hvars part hmem =>
    unbroken_suggestAll hvars (unbroken_operandTypes (he part hmem))

theorem unbroken_suggestAssignment
    (h : vars.Unbroken)
    (hins : ins.Unbroken) :
    (suggestAssignment vars ins).Unbroken := by
  unfold suggestAssignment
  split
  · next v value _ hread =>
      split
      · next type hknown =>
          exact h.suggestType ((hins.value? value hread).knownType h type hknown) v
      · next type _ held => exact unbroken_suggestFor h value (h v type held)
      · exact h
  · exact h

theorem unbroken_suggestByKind
    (h : vars.Unbroken)
    (hins : ins.Unbroken)
    (hr : Text.Unbroken returns)
    (hc : ∀ t ∈ catchType, Text.Unbroken t) :
    (suggestByKind returns catchType vars ins).Unbroken := by
  have hknown {e : Expr} (hmem : e ∈ ins.operands) : ∀ t ∈ e.knownType vars, Text.Unbroken t :=
    (hins.operands e hmem).knownType h
  unfold suggestByKind
  split
  · refine h.suggestType ?_ _
    cases catchType with
    | none => exact unbroken_throwable
    | some type => exact hc type rfl
  · exact unbroken_suggestFor h _ hr
  · next object field value =>
      refine unbroken_suggestAll h fun hint hmem => ?_
      rcases List.mem_pair.1 hmem with rfl | rfl
      · exact hins.own field.owner List.mem_cons_self
      · exact hins.own field.descriptor (by simp [Instr.ownWords, Bytecode.FieldRef.words])
  · next field value =>
      exact unbroken_suggestFor h value
        (hins.own field.descriptor (by simp [Instr.ownWords, Bytecode.FieldRef.words]))
  · next array index value =>
      have hindexed : (suggestFor vars index "I").Unbroken :=
        unbroken_suggestFor h index (by decide)
      dsimp only
      split
      · next element hfound =>
          obtain ⟨type, held, hinner⟩ := Option.bind_eq_some_iff.1 hfound
          have harray_type := (hins.operands array List.mem_cons_self).knownType hindexed type held
          exact unbroken_suggestFor hindexed value
            (Descriptor.unbroken_element? harray_type element hinner)
      · exact hindexed
  · next left right =>
      split
      · next type hfound =>
          exact unbroken_suggestFor h right (hknown List.mem_cons_self type hfound)
      · next type _ hfound =>
          exact unbroken_suggestFor h left (hknown (by simp [Instr.operands]) type hfound)
      · exact h
  · exact unbroken_suggestFor h _ unbroken_throwable
  · exact h

theorem unbroken_suggestInstr
    (h : vars.Unbroken)
    (hins : ins.Unbroken)
    (hr : Text.Unbroken returns)
    (hc : ∀ t ∈ catchType, Text.Unbroken t) :
    (suggestInstr returns catchType vars ins).Unbroken :=
  List.foldlRecOn _ _ (unbroken_suggestByKind (unbroken_suggestAssignment h hins) hins hr hc)
    fun _ hvars e hmem => unbroken_suggestOperands hvars (hins.operands e hmem)

variable {g : FlowGraph}

theorem unbroken_sweep
    (hg : g.Unbroken)
    (hr : Text.Unbroken returns)
    (h : vars.Unbroken) :
    (sweep g returns vars).Unbroken := by
  refine List.foldlRecOn _ _ h fun _ hvars id _ => ?_
  exact List.foldlRecOn _ _ hvars fun _ hvars ins hmem =>
    unbroken_suggestInstr hvars ((hg.node id).ins ins hmem) hr (hg.node id).catchType

theorem unbroken_settle
    (hg : g.Unbroken)
    (hr : Text.Unbroken returns)
    (sweeps : Nat)
    (h : vars.Unbroken) :
    (settle g returns sweeps vars).Unbroken := by
  induction sweeps generalizing vars with
  | zero => exact h
  | succ sweeps ih =>
      unfold settle
      dsimp only
      split
      · exact unbroken_sweep hg hr h
      · exact ih (unbroken_sweep hg hr h)

/-- **Inference brings no breaks in**: types come from the code or are fixed. -/
theorem unbroken_infer
    (hg : g.Unbroken)
    (hr : Text.Unbroken returns)
    (h : vars.Unbroken) :
    (infer g returns vars).Unbroken := by
  refine List.foldlRecOn _ _ (unbroken_settle hg hr _ h) fun _ hvars id _ => ?_
  refine List.foldlRecOn _ _ hvars fun _ hvars ins _ => ?_
  unfold suggestConstant
  split
  · exact hvars.suggestType (by decide) _
  · exact hvars

end Typing

end DalvikDecompiler
