import DalvikDecompiler.Proofs.FlowGraph.Guided
import DalvikDecompiler.Proofs.FlowGraph.LoopHeads
import DalvikDecompiler.Region.Structure

/-!
# Marking what structuring finds

**Input.** A flow graph with its dominator tree.

Apart from merging branches and entering protected regions, structuring writes down what it finds in
the nodes.  Edges, numbers and the targets of branches stay.

**Results.**
* `Marks`: nodes are as before, apart from what is written down about switches, loops and branches.
* `markSwitches_marks`, `recordLoops_marks`, `markIfFollows_marks`, `makeHeads_marks`,
  `describeLoops_marks`, `markByContext_marks`: the stages that only mark nodes.
-/

namespace DalvikDecompiler

/-- The start of the protected region that a node enters. -/
def NodeKind.entered? : NodeKind → Option NodeId
  | .tryBlock start .. => some start
  | _ => none

/-- The type of the exceptions that a handler says it takes. -/
def NodeKind.caught? : NodeKind → Option String
  | .loop inner _ => inner.caught?
  | .catchBlock _ _ type => type
  | _ => none

theorem NodeKind.entered?_remap
    (kind : NodeKind)
    (f : NodeId → NodeId) :
    (kind.remap f).entered? = kind.entered?.map f := by
  cases kind <;> rfl

namespace FlowGraph

/-- A node with other marks. -/
structure Remarked (n n' : Node) : Prop where
  num_eq : n'.num = n.num
  ins_eq : n'.ins = n.ins
  locs_eq : n'.locs = n.locs
  targets_eq : n'.kind.targets? = n.kind.targets?
  base_iff : ∀ sc, n'.kind.base = .shortCircuit sc ↔ n.kind.base = .shortCircuit sc
  /-- A head of a loop enters no region. -/
  entered : n.kind.entered? = none → n'.kind.entered? = none
  catchType_eq : n'.catchType = n.catchType
  caught_eq : n'.kind.caught? = n.kind.caught?

/-- Only the marks of nodes have changed. -/
structure Marks (g g' : FlowGraph) : Prop where
  touch : Retouches Remarked g g'
  order_eq : g'.order = g.order
  locIndex_eq : g'.locIndex = g.locIndex

section Marking

variable {g g' g'' : FlowGraph} {n n' n'' : Node} {id : NodeId} {f : Node → Node}

theorem Remarked.refl
    (n : Node) :
    Remarked n n :=
  ⟨rfl, rfl, rfl, rfl, fun _ => .rfl, fun hnone => hnone, rfl, rfl⟩

theorem Remarked.trans
    (h : Remarked n n')
    (h' : Remarked n' n'') :
    Remarked n n'' where
  num_eq := h'.num_eq.trans h.num_eq
  ins_eq := h'.ins_eq.trans h.ins_eq
  locs_eq := h'.locs_eq.trans h.locs_eq
  targets_eq := h'.targets_eq.trans h.targets_eq
  base_iff sc := (h'.base_iff sc).trans (h.base_iff sc)
  entered hnone := h'.entered (h.entered hnone)
  catchType_eq := h'.catchType_eq.trans h.catchType_eq
  caught_eq := h'.caught_eq.trans h.caught_eq

/-- A node whose kind stays. -/
theorem remarked_of_kind
    (hnum : n'.num = n.num)
    (hins : n'.ins = n.ins)
    (hlocs : n'.locs = n.locs)
    (hkind : n'.kind = n.kind)
    (hcatchType : n'.catchType = n.catchType) :
    Remarked n n' :=
  ⟨hnum, hins, hlocs, by rw [hkind], fun _ => by rw [hkind], fun hnone => hkind ▸ hnone, hcatchType,
    by rw [hkind]⟩

theorem Marks.refl
    (g : FlowGraph) :
    Marks g g :=
  ⟨.refl Remarked.refl g, rfl, rfl⟩

theorem Marks.trans
    (h : Marks g g')
    (h' : Marks g' g'') :
    Marks g g'' :=
  ⟨h.touch.trans (fun _ _ _ => .trans) h'.touch, h'.order_eq.trans h.order_eq,
    h'.locIndex_eq.trans h.locIndex_eq⟩

theorem Marks.guided
    (hmarks : Marks g g')
    (h : g.Guided) :
    g'.Guided :=
  h.retouch (hmarks.touch.mono fun _ _ hkept => hkept.targets_eq)

theorem marks_modifyNode
    (heach : ∀ n, Remarked n (f n)) :
    Marks g (g.modifyNode id f) :=
  ⟨retouches_modifyNode id Remarked.refl heach, rfl, rfl⟩

/-- What every step only marks, all of them only mark. -/
theorem marks_foldl
    {σ α : Type}
    (graph : σ → FlowGraph)
    {step : σ → α → σ}
    (heach : ∀ s x, Marks (graph s) (graph (step s x)))
    (xs : List α)
    (s : σ) :
    Marks (graph s) (graph (xs.foldl step s)) := by
  induction xs generalizing s with
  | nil => exact .refl _
  | cons x xs ih => exact (heach s x).trans (ih (step s x))

end Marking

section Switches

variable (g : FlowGraph) (tree : DominatorTree)

theorem targets?_mapSwitch
    (kind : NodeKind)
    (f : SwitchTable → SwitchTable) :
    (kind.mapSwitch f).targets? = kind.targets? := by
  induction kind with
  | loop inner _ ih => exact ih
  | _ => rfl

theorem base_mapSwitch_iff
    (kind : NodeKind)
    (f : SwitchTable → SwitchTable)
    (sc : ShortCircuit) :
    (kind.mapSwitch f).base = .shortCircuit sc ↔ kind.base = .shortCircuit sc := by
  induction kind with
  | loop inner _ ih => exact ih
  | switch => exact ⟨nofun, nofun⟩
  | _ => exact .rfl

theorem entered?_mapSwitch
    (kind : NodeKind)
    (f : SwitchTable → SwitchTable) :
    (kind.mapSwitch f).entered? = kind.entered? := by
  cases kind <;> rfl

theorem caught?_mapSwitch
    (kind : NodeKind)
    (f : SwitchTable → SwitchTable) :
    (kind.mapSwitch f).caught? = kind.caught? := by
  induction kind with
  | loop inner _ ih => exact ih
  | _ => rfl

theorem remarked_mapSwitch
    (n : Node)
    (f : SwitchTable → SwitchTable) :
    Remarked n { n with kind := n.kind.mapSwitch f } where
  num_eq := rfl
  ins_eq := rfl
  locs_eq := rfl
  targets_eq := targets?_mapSwitch n.kind f
  base_iff := base_mapSwitch_iff n.kind f
  entered hnone := (entered?_mapSwitch n.kind f).trans hnone
  catchType_eq := rfl
  caught_eq := caught?_mapSwitch n.kind f

theorem setSwitchFollow_marks
    (id follow : NodeId) :
    Marks g (g.setSwitchFollow id follow) :=
  marks_modifyNode fun _ => remarked_of_kind rfl rfl rfl rfl rfl

theorem markSwitch_marks
    (state : FlowGraph × List NodeId)
    (id : NodeId) :
    Marks state.1 (markSwitch tree state id).1 := by
  obtain ⟨g, waiting⟩ := state
  unfold markSwitch
  dsimp only
  refine .trans ?_ (marks_modifyNode fun n => remarked_mapSwitch n SwitchTable.order)
  split
  · next follow _ =>
      exact marks_foldl (fun g => g) (fun g x => setSwitchFollow_marks g x follow) _ g
  · exact .refl g

theorem markSwitches_marks :
    Marks g (g.markSwitches tree) :=
  marks_foldl Prod.fst (markSwitch_marks tree) g.switches (g, [])

end Switches

section Loops

variable (g : FlowGraph)

theorem recordLoops_marks
    (sequence : Digraph.DerivedSequence) :
    Marks g (g.recordLoops sequence).1 := by
  refine marks_foldl Prod.fst (fun state level => ?_) sequence.levels (g, 0)
  refine marks_foldl Prod.fst (fun state entry => ?_) (intervalsByHead level) state
  rw [recordLoop_fst]
  split
  · exact .refl _
  · exact marks_modifyNode fun _ => remarked_of_kind rfl rfl rfl rfl rfl

theorem makeHead_marks
    (id : NodeId) :
    Marks g (g.makeHead id) := by
  unfold makeHead
  split
  · exact marks_modifyNode fun n => ⟨rfl, rfl, rfl, rfl, fun _ => .rfl, fun _ => rfl, rfl, rfl⟩
  · exact .refl g

theorem makeHeads_marks :
    Marks g g.makeHeads :=
  marks_foldl (fun g => g) makeHead_marks g.order g

theorem remarked_setLoopTest
    (n : Node)
    (type : LoopTest) :
    Remarked n { n with kind := setLoopTest type n.kind } := by
  cases hkind : n.kind with
  | loop inner =>
      exact ⟨rfl, rfl, rfl, by rw [hkind]; rfl, fun _ => by rw [hkind]; rfl, fun _ => rfl, rfl,
        by rw [hkind]; rfl⟩
  | _ => exact remarked_of_kind rfl rfl rfl hkind.symm rfl

theorem markLoopFollow_marks
    (head : NodeId) :
    Marks g (g.markLoopFollow head).1 := by
  have hmark (follow : Option NodeId) (g : FlowGraph) (id : NodeId) :
      Marks g (g.modifyNode id fun n => { n with loopFollow := follow }) :=
    marks_modifyNode fun _ => remarked_of_kind rfl rfl rfl rfl rfl
  exact marks_foldl (fun g => g) (hmark (g.loopFollowOf head).found)
    (head :: (g.node head).loopNodes) g

theorem describeLoop_marks
    (state : FlowGraph × Bool)
    (id : NodeId) :
    Marks state.1 (describeLoop state id).1 := by
  obtain ⟨g, dangling⟩ := state
  unfold describeLoop
  dsimp only
  split
  · have htest : Marks g (g.markLoopTest id) := by
      unfold markLoopTest
      split
      · exact .refl g
      · exact marks_modifyNode fun n => remarked_setLoopTest n _
    exact htest.trans (markLoopFollow_marks _ id)
  · exact .refl g

theorem describeLoops_marks :
    Marks g g.describeLoops.1 :=
  marks_foldl Prod.fst describeLoop_marks g.order (g, false)

end Loops

section Branches

variable (g : FlowGraph) (tree : DominatorTree)

theorem setIfFollow_marks
    (id follow : NodeId) :
    Marks g (g.setIfFollow id follow) :=
  marks_modifyNode fun _ => remarked_of_kind rfl rfl rfl rfl rfl

theorem markIfFollow_marks
    (state : FlowGraph × List NodeId)
    (id : NodeId) :
    Marks state.1 (markIfFollow tree state id).1 := by
  obtain ⟨g, waiting⟩ := state
  unfold markIfFollow
  dsimp only
  split
  · split
    · exact .refl g
    · next follow _ =>
        exact (setIfFollow_marks g id follow).trans
          (marks_foldl (fun g => g) (fun g x => setIfFollow_marks g x follow) _ _)
  · exact .refl g

theorem markIfFollows_marks :
    Marks g (g.markIfFollows tree).1 :=
  marks_foldl Prod.fst (markIfFollow_marks tree) g.order.reverse (g, [])

theorem markByContext_marks
    (id : NodeId) :
    Marks g (g.markByContext id) := by
  unfold markByContext
  dsimp only
  split
  · exact setIfFollow_marks g id _
  · exact .refl g

end Branches

end FlowGraph
end DalvikDecompiler
