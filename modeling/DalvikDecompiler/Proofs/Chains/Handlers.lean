import DalvikDecompiler.Proofs.Chains.Removal

/-!
# What a handler can read

**Input.** A flow graph with exception edges.

An exception edge counts like any other edge: a handler is entered behind the
protected node as a whole.  A value that the rest of the node does not
overwrite is seen by the handler wherever the node is left, and its definition
stays as long as the instruction that reads it.

**Results.**
* `Reaches.leave`: a definition that is not overwritten in the rest of a node
  reaches the nodes behind it.
* `run_keeps_suppliers`: removing dead code keeps every definition that is
  linked with an instruction that is left.
* `handler_reads_linked`: a handler is linked with the values of a protected
  node that are not overwritten there, and these are not removed.
-/

namespace DalvikDecompiler

open FlowGraph (placedSlot)
open Symbolic (VarId Instr)

namespace FlowGraph

variable {g : FlowGraph} {params : List VarId} {v : VarId} {d : Loc} {n m : NodeId}
  {position : Nat}

/-- What is run up to a position and then to the end of its node leads to the nodes behind. -/
theorem RunsTo.leave
    {run : List RunStep}
    (h : g.RunsTo run n position)
    (hm : m ∈ g.flowSuccs n)
    (q : Nat) :
    g.RunsTo (run ++ (g.code n).drop position ++ (g.code m).take q) m q := by
  obtain ⟨front, w, rfl⟩ := h
  refine ⟨front ++ [n], w.step hm, ?_⟩
  simp [List.append_assoc]

/-- A definition that the rest of a node does not overwrite, nor the start of a node behind it,
reaches that far. -/
theorem Reaches.leave
    {q : Nat}
    (h : g.Reaches params v d n position)
    (hm : m ∈ g.flowSuccs n)
    (hrest : ∀ x, x ∈ (g.code n).drop position → x.1.target? ≠ some v)
    (hfirst : ∀ x, x ∈ (g.code m).take q → x.1.target? ≠ some v) :
    g.Reaches params v d m q := by
  rw [reaches_iff_supplied] at h ⊢
  obtain ⟨run, hrun, hsupplied⟩ := h
  refine ⟨_, hrun.leave hm q, ?_⟩
  have hlast : lastDefinition v (run ++ (g.code n).drop position ++ (g.code m).take q) =
      lastDefinition v run := by
    rw [lastDefinition_append, lastDefinition_append, lastDefinition_eq_none_iff.mpr hrest,
      lastDefinition_eq_none_iff.mpr hfirst, Option.none_or, Option.none_or]
  rw [Supplied, hlast]
  exact hsupplied

end FlowGraph

namespace Pruning

open FlowGraph (Holds Retires Rewrites)

/-- Certain definitions are still in place and linked with their uses, unless the use is gone. -/
def Supplies (links : VarId → Loc → Loc → Prop) (s : Pruning) : Prop :=
  ∀ v d u reader, links v d u → s.graph.Holds reader u →
    d ∈ s.chains.defs v u ∧ ∃ ins, s.graph.Holds ins d ∧ ins.target? = some v

variable {links : VarId → Loc → Loc → Prop} {s : Pruning} {params : List VarId}
  {stale : VarId → Loc → Prop} {loc : Loc} {ins : Instr} {g' : FlowGraph}
  {f : RunStep → Option RunStep}

/-- An unused definition goes; it is none of those that are kept. -/
theorem Supplies.retire
    {removed : Nat}
    (h : Supplies links s)
    (hs : UpToDate s params stale)
    (hf : Retires s.graph f loc)
    (hrewrites : Rewrites s.graph g' f)
    (hunused : ∀ w, ins.target? = some w → s.chains.uses w loc = [])
    (hins : s.graph.Holds ins loc) :
    Supplies links { graph := g', chains := s.chains, removed } := by
  intro v d u reader hlink hreader
  obtain ⟨before, hbefore, -⟩ := holds_of_retires hf hrewrites hreader
  obtain ⟨hd, definition, hdefinition, htarget⟩ := h v d u before hlink hbefore
  refine ⟨hd, definition, holds_of_retires_of_ne hf hrewrites ?_ hdefinition, htarget⟩
  rintro rfl
  have huse : u ∈ s.chains.uses v d := (hs.mutually v d u).mpr hd
  rw [hunused v (hs.target_eq v d u ins hd hins)] at huse
  exact List.not_mem_nil huse

/-- Every single change keeps what supplies an instruction that is left. -/
theorem supplies_stable
    (params : List VarId)
    (links : VarId → Loc → Loc → Prop) :
    Stable params (Supplies links) where
  dropTarget hs h hins hcall hunused :=
    h.retire hs (retires_dropTarget hs.indexed hins hcall)
      (.modifyInstr hs.indexed _ _) hunused hins
  removeInstr {s stale loc ins} hs h hins _ _ hunused :=
    h.retire hs (FlowGraph.retires_dropAt _ loc) (.removeInstr hs.indexed loc) hunused hins
  forgetUse {s stale v loc} hs h hgone := by
    intro w d u reader hlink hreader
    obtain ⟨hd, hdefinition⟩ := h w d u reader hlink hreader
    refine ⟨Chains.mem_defs_forgetUse.mpr ⟨hd, fun hsame => ?_⟩, hdefinition⟩
    exact hgone reader (hsame.2 ▸ hreader)

/-- Removing dead code keeps every definition that is linked with an instruction that is left. -/
theorem run_keeps_suppliers
    {g : FlowGraph}
    {c : Chains}
    {v : VarId}
    {d u : Loc}
    {reader : Instr}
    (h : c.Tracks g params)
    (hlink : g.Links params v d u)
    (hd : 0 ≤ d)
    (hreader : (run g c).graph.Holds reader u) :
    ∃ ins, (run g c).graph.Holds ins d ∧ ins.target? = some v := by
  have hstart : Supplies (fun v d u => g.Links params v d u ∧ 0 ≤ d)
      { graph := g, chains := c, removed := 0 } := by
    rintro v d u reader ⟨hlink, hd⟩ -
    refine ⟨(h.mem_defs_iff v d u).mpr hlink, ?_⟩
    obtain ⟨run, ins, hexec, -, hlast | ⟨-, hargument⟩⟩ := hlink
    · obtain ⟨definition, hmem, htarget⟩ := exists_mem_of_lastDefinition hlast
      exact ⟨definition, hexec.holds_of_mem hmem, htarget⟩
    · obtain ⟨index, -, rfl⟩ := mem_argumentSites.mp hargument
      exact absurd hd (Int.not_le.mpr (Reaching.argumentLoc_neg index))
  exact (((supplies_stable params _).run h hstart).holds v d u reader ⟨hlink, hd⟩ hreader).2

end Pruning

namespace Chains

/-- Chains with the links of a graph track it. -/
theorem Agrees.tracks
    {c : Chains}
    {g : FlowGraph}
    {params : List VarId}
    (hg : g.Indexed)
    (h : c.Agrees (ofGraph g params)) :
    c.Tracks g params := by
  refine ⟨hg, fun v d u => ?_, fun v d u => ?_⟩
  · rw [(h v d u).1, (h v d u).2, mem_uses_ofGraph hg.numbered, mem_defs_ofGraph hg.numbered]
  · rw [(h v d u).1, mem_defs_ofGraph hg.numbered]

/-- **What a handler can read.**  A definition reaches a position of a protected node, and the
rest of the node does not overwrite it.  Then it is linked, at both ends, with every use of its
variable in a handler of the node that no earlier instruction of the handler redefines; and when
dead code is removed the definition stays, unless the instruction that reads it goes itself. -/
theorem handler_reads_linked
    (g : FlowGraph)
    (params : List VarId)
    (hg : g.Numbered)
    (n handler : NodeId)
    (hedge : handler ∈ g.handlerSuccs n)
    (v : VarId)
    (d u : Loc)
    (position q : Nat)
    (reader : Instr)
    (hreaches : g.Reaches params v d n position)
    (hrest : ∀ x, x ∈ (g.code n).drop position → x.1.target? ≠ some v)
    (huse : (g.code handler)[q]? = some (reader, u))
    (hreads : v ∈ reader.reads)
    (hfirst : ∀ x, x ∈ (g.code handler).take q → x.1.target? ≠ some v) :
    (d ∈ (ofGraph g params).defs v u ∧ u ∈ (ofGraph g params).uses v d) ∧
      ∀ c : Chains, g.Indexed → c.Agrees (ofGraph g params) → 0 ≤ d →
        (∃ left, (Pruning.run g c).graph.Holds left u) →
          ∃ ins, (Pruning.run g c).graph.Holds ins d ∧ ins.target? = some v := by
  have hflow : handler ∈ g.flowSuccs n := List.mem_append_right _ hedge
  have hlink : g.Links params v d u :=
    links_iff_reaches.mpr ⟨handler, q, reader, huse, hreads, hreaches.leave hflow hrest hfirst⟩
  refine ⟨⟨(mem_defs_ofGraph hg).mpr hlink, (mem_uses_ofGraph hg).mpr hlink⟩, ?_⟩
  rintro c hindexed hagrees hd ⟨left, hleft⟩
  exact Pruning.run_keeps_suppliers (hagrees.tracks hindexed) hlink hd hleft

/-- A node that assigns two variables, makes a call and assigns the first one again, and a handler
for it that returns their sum. -/
def protectedReassignment : FlowGraph :=
  { FlowGraph.empty with
    slots := #[
      { placedSlot .statement
          [(.assign (some 0) (.const (.int 1)), 0), (.assign (some 1) (.const (.int 5)), 1),
            (.assign none (.staticCall ⟨"LP;", "a", "()V"⟩ []), 2),
            (.assign (some 0) (.const (.int 2)), 3)] [1] [] with handlerSuccs := [2] },
      placedSlot .statement [(.ret (some (.var 0)), 5)] [] [0],
      { placedSlot .statement [(.ret (some (.binary .add (.var 0) (.var 1) "I")), 4)] [] [] with
        handlerPreds := [0] }]
    order := [0, 2, 1]
    locIndex := [(0, 0), (1, 0), (2, 0), (3, 0), (4, 2), (5, 1)] }

theorem protectedReassignment_indexed :
    protectedReassignment.Indexed := by
  refine .of_lt ⟨FlowGraph.wellFormed_of_lt (by decide) (by decide), ?_, by decide, by decide,
    by decide⟩ (by decide) (by decide)
  simp [protectedReassignment, FlowGraph.toDigraph, Digraph.reversePostorder, Digraph.postorder,
    Digraph.leaveOrder, FlowGraph.size, FlowGraph.flowSuccs, FlowGraph.succs,
    FlowGraph.handlerSuccs, FlowGraph.empty, placedSlot, List.range_succ]

theorem protectedReassignment_reaches :
    protectedReassignment.Reaches [] 0 0 0 2 ∧ protectedReassignment.Reaches [] 1 1 0 2 := by
  have hwalk : protectedReassignment.toDigraph.Walk 0 0 ([] ++ [0]) := .here
  constructor
  · exact Or.inl ⟨0, ⟨_, hwalk⟩, [], _, [], _, hwalk, List.mem_of_getElem? (i := 0) rfl, rfl, rfl,
      by decide⟩
  · exact Or.inl ⟨0, ⟨_, hwalk⟩, [], _, [(.assign (some 0) (.const (.int 1)), 0)], [], hwalk,
      List.mem_of_getElem? (i := 1) rfl, rfl, rfl, by simp⟩

/-- The handler is linked with the value that is assigned once, and its definition is kept. -/
theorem handler_reads_linked_once :
    protectedReassignment.Reaches [] 1 1 0 2 ∧
      1 ∈ (ofGraph protectedReassignment []).defs 1 4 ∧
      ∃ ins, (Pruning.run protectedReassignment (ofGraph protectedReassignment [])).graph.Holds
        ins 1 ∧ ins.target? = some 1 := by
  obtain ⟨hlinked, hkept⟩ := handler_reads_linked protectedReassignment []
    protectedReassignment_indexed.numbered 0 2 (by decide) 1 1 4 2 0 _
    protectedReassignment_reaches.2 (by decide) rfl (by decide) (by simp)
  refine ⟨protectedReassignment_reaches.2, hlinked.1, ?_⟩
  refine hkept _ protectedReassignment_indexed (fun _ _ _ => ⟨Iff.rfl, Iff.rfl⟩) (by decide) ?_
  exact ⟨_, 2, List.mem_of_getElem? (i := 0) (by cbv)⟩

/-- The value that is assigned again behind the call reaches the call, from which the handler can
be entered; the handler is not linked with it, and its definition is removed as dead. -/
theorem overwritten_not_linked :
    protectedReassignment.Indexed ∧ 2 ∈ protectedReassignment.handlerSuccs 0 ∧
      protectedReassignment.Reaches [] 0 0 0 2 ∧
      (∃ reader, (protectedReassignment.code 2)[0]? = some (reader, 4) ∧ 0 ∈ reader.reads) ∧
      0 ∉ (ofGraph protectedReassignment []).defs 0 4 ∧
      (Pruning.run protectedReassignment (ofGraph protectedReassignment [])).graph.instrAt 0 =
        none := by
  have hdefs : (ofGraph protectedReassignment []).defs 0 4 = [3] := by cbv
  exact ⟨protectedReassignment_indexed, by decide, protectedReassignment_reaches.1,
    ⟨_, rfl, by decide⟩, by simp [hdefs], by cbv⟩

end Chains
end DalvikDecompiler
