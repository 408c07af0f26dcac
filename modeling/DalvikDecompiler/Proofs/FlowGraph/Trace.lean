import DalvikDecompiler.Chains.Reaching
import DalvikDecompiler.Proofs.Digraph.Reachability
import Mathlib

/-!
# Code run along walks

**Input.** A flow graph whose instructions have places.

The code run along a walk is the code of its nodes, one after another, each
node as a whole.  What a variable holds behind some code was given to it by its
last definition there, or by an argument if there is none.

**Results.**
* `lastDefinition_eq_some_iff`: a last definition is one behind which the
  variable is not defined again.
* `reaches_iff_supplied`: a definition in a node that can be reached goes on to
  reach a position without being overwritten exactly if some walk from the
  entry leads there with it as the last definition.
-/

namespace DalvikDecompiler

open Symbolic (VarId Instr)

/-- An instruction and its place. -/
abbrev RunStep := Instr × Loc

/-- A slot of a sample graph whose code has places and which has normal edges only. -/
def FlowGraph.placedSlot (kind : NodeKind) (code : List RunStep) (succs preds : List NodeId) :
    Slot :=
  { node := { Node.plain "" kind with ins := code.map Prod.fst, locs := code.map Prod.snd }
    live := true
    succs
    preds
    handlerSuccs := []
    handlerPreds := [] }

/-- The place of the last definition of a variable in some code. -/
def lastDefinition (v : VarId) : List RunStep → Option Loc
  | [] => none
  | x :: rest => (lastDefinition v rest).or (if x.1.target? = some v then some x.2 else none)

/-- A place holds a definition that supplies a variable behind some code from the start of a
method. -/
def Supplied (params : List VarId) (v : VarId) (code : List RunStep) (d : Loc) : Prop :=
  lastDefinition v code = some d ∨
    lastDefinition v code = none ∧ (v, d) ∈ Reaching.argumentSites params

theorem mem_argumentSites
    {params : List VarId}
    {v : VarId}
    {d : Loc} :
    (v, d) ∈ Reaching.argumentSites params ↔
      ∃ index, params[index]? = some v ∧ d = argumentLoc index := by
  simp only [Reaching.argumentSites, List.mem_map, Prod.mk.injEq]
  constructor
  · rintro ⟨⟨w, index⟩, hmem, rfl, rfl⟩
    exact ⟨index, by simpa [List.mem_zipIdx_iff_getElem?] using hmem, rfl⟩
  · rintro ⟨index, hparam, rfl⟩
    exact ⟨(v, index), by simpa [List.mem_zipIdx_iff_getElem?] using hparam, rfl, rfl⟩

section LastDefinition

variable {v : VarId} {a b code : List RunStep} {d : Loc}

theorem lastDefinition_append :
    lastDefinition v (a ++ b) = (lastDefinition v b).or (lastDefinition v a) := by
  induction a with
  | nil => simp [lastDefinition]
  | cons x a ih => simp [lastDefinition, ih, Option.or_assoc]

theorem lastDefinition_eq_none_iff :
    lastDefinition v code = none ↔ ∀ x, x ∈ code → x.1.target? ≠ some v := by
  induction code with
  | nil => simp [lastDefinition]
  | cons x code ih => simp [lastDefinition, ih, and_comm]

theorem lastDefinition_eq_some_iff :
    lastDefinition v code = some d ↔
      ∃ before ins after, code = before ++ (ins, d) :: after ∧ ins.target? = some v ∧
        ∀ x, x ∈ after → x.1.target? ≠ some v := by
  constructor
  · intro h
    induction code with
    | nil => simp [lastDefinition] at h
    | cons x code ih =>
        cases hrest : lastDefinition v code with
        | some e =>
            have he : e = d := by simpa [lastDefinition, hrest] using h
            obtain ⟨before, ins, after, hcode, hins, hafter⟩ := ih (he ▸ hrest)
            exact ⟨x :: before, ins, after, by simp [hcode], hins, hafter⟩
        | none =>
            obtain ⟨ins, loc⟩ := x
            have hx : ins.target? = some v ∧ loc = d := by simpa [lastDefinition, hrest] using h
            refine ⟨[], ins, code, by simp [hx.2], hx.1, ?_⟩
            exact lastDefinition_eq_none_iff.mp hrest
  · rintro ⟨before, ins, after, rfl, hins, hafter⟩
    have hnone := lastDefinition_eq_none_iff.mpr hafter
    simp [lastDefinition_append, lastDefinition, hnone, hins]

/-- Code behind which a variable has a last definition holds that definition. -/
theorem exists_mem_of_lastDefinition
    (h : lastDefinition v code = some d) :
    ∃ ins, (ins, d) ∈ code ∧ ins.target? = some v := by
  obtain ⟨before, ins, after, rfl, hins, -⟩ := lastDefinition_eq_some_iff.mp h
  exact ⟨ins, by simp, hins⟩

/-- The part of a node in front of a position, read off its instructions and places. -/
theorem lastBefore_eq
    (n : Node)
    (v : VarId)
    (position : Nat) :
    Reaching.lastBefore n v position =
      lastDefinition v ((n.ins.zip n.locs).take position) := by
  have hzip : (n.ins.take position).zip n.locs = (n.ins.zip n.locs).take position := by
    generalize n.locs = locs
    induction n.ins generalizing locs position with
    | nil => simp
    | cons ins rest ih =>
        cases locs with
        | nil => simp
        | cons l locs => cases position <;> simp [ih]
  have hlast : ∀ code : List RunStep,
      (code.filter fun entry => entry.1.target? == some v).getLast?.map Prod.snd =
        lastDefinition v code := by
    intro code
    induction code with
    | nil => rfl
    | cons x code ih =>
        rw [lastDefinition, ← ih]
        by_cases hx : x.1.target? = some v
        · rw [List.filter_cons_of_pos (by simpa using hx), List.getLast?_cons]
          cases (code.filter fun entry => entry.1.target? == some v).getLast? <;> simp [hx]
        · rw [List.filter_cons_of_neg (by simpa using hx)]
          simp [hx]
  rw [Reaching.lastBefore, hzip]
  exact hlast _

end LastDefinition

namespace FlowGraph

/-- The instructions of a node with their places. -/
def code (g : FlowGraph) (id : NodeId) : List RunStep :=
  (g.node id).ins.zip (g.node id).locs

/-- The code run along some nodes. -/
def trace (g : FlowGraph) (nodes : List NodeId) : List RunStep :=
  nodes.flatMap g.code

/-- Edges are kept at both of their ends, the order is that of the graph as it is, and the
instructions in it have places of their own, counted from zero. -/
structure Numbered (g : FlowGraph) : Prop where
  wellFormed : g.toDigraph.WellFormed
  current : g.order = g.toDigraph.reversePostorder g.entry
  length_eq : ∀ id, id ∈ g.order → (g.node id).locs.length = (g.node id).ins.length
  nodup : (g.order.flatMap fun id => (g.node id).locs).Nodup
  nonneg : ∀ id, id ∈ g.order → ∀ loc, loc ∈ (g.node id).locs → 0 ≤ loc

/-- A definition in a node reaches a position of a node: a walk leads there, and the code run on
the way, whole nodes and then the last one up to the position, does not define the variable again
behind the definition. -/
def ReachesFrom (g : FlowGraph) (v : VarId) (d : Loc) (m n : NodeId) (position : Nat) : Prop :=
  ∃ front ins before after,
    g.toDigraph.Walk m n (front ++ [n]) ∧ (ins, d) ∈ g.code m ∧
    g.trace front ++ (g.code n).take position = before ++ (ins, d) :: after ∧
    ins.target? = some v ∧ ∀ x, x ∈ after → x.1.target? ≠ some v

/-- An argument reaches a position of a node: a walk leads there from the entry, and the code run
on the way does not define its variable. -/
def ArgumentReaches (g : FlowGraph) (params : List VarId) (v : VarId) (d : Loc) (n : NodeId)
    (position : Nat) : Prop :=
  ∃ index front,
    params[index]? = some v ∧ d = argumentLoc index ∧
    g.toDigraph.Walk g.entry n (front ++ [n]) ∧
    ∀ x, x ∈ g.trace front ++ (g.code n).take position → x.1.target? ≠ some v

/-- A definition reaches a position from a node that can itself be reached, or as an argument. -/
def Reaches (g : FlowGraph) (params : List VarId) (v : VarId) (d : Loc) (n : NodeId)
    (position : Nat) : Prop :=
  (∃ m, g.toDigraph.Reachable g.entry m ∧ g.ReachesFrom v d m n position) ∨
    g.ArgumentReaches params v d n position

/-- Code that is run from the entry up to a position of a node. -/
def RunsTo (g : FlowGraph) (run : List RunStep) (n : NodeId) (position : Nat) : Prop :=
  ∃ front, g.toDigraph.Walk g.entry n (front ++ [n]) ∧
    run = g.trace front ++ (g.code n).take position

/-- A step that is run from the entry behind some code. -/
def Executes (g : FlowGraph) (run : List RunStep) (x : RunStep) : Prop :=
  ∃ n nodes after, g.toDigraph.Walk g.entry n nodes ∧ g.trace nodes = run ++ x :: after

variable {g : FlowGraph} {params : List VarId}

@[simp] theorem trace_append
    (a b : List NodeId) :
    g.trace (a ++ b) = g.trace a ++ g.trace b := by
  simp [trace]

@[simp] theorem trace_singleton
    (id : NodeId) :
    g.trace [id] = g.code id := by
  simp [trace]

/-- Edges can be checked slot by slot. -/
theorem wellFormed_of_lt
    (hsuccs : ∀ a, a < g.size → ∀ b, b ∈ g.flowSuccs a → b < g.size ∧ a ∈ g.flowPreds b)
    (hpreds : ∀ b, b < g.size → ∀ a, a ∈ g.flowPreds b → a < g.size ∧ b ∈ g.flowSuccs a) :
    g.toDigraph.WellFormed := by
  have hnone : ∀ id, ¬ id < g.size → g.slots[id]? = none := fun id h =>
    Array.getElem?_eq_none (Nat.le_of_not_lt h)
  have hsource : ∀ a b, b ∈ g.flowSuccs a → a < g.size := by
    intro a b h
    by_contra ha
    simp [flowSuccs, succs, handlerSuccs, hnone a ha] at h
  have htarget : ∀ a b, a ∈ g.flowPreds b → b < g.size := by
    intro a b h
    by_contra hb
    simp [flowPreds, preds, handlerPreds, hnone b hb] at h
  refine ⟨fun a b => ⟨fun h => ?_, fun h => ?_⟩, hsource, fun a b h => ?_⟩
  · exact (hpreds b (htarget a b h) a h).2
  · exact (hsuccs a (hsource a b h) b h).2
  · exact (hsuccs a (hsource a b h) b h).1

theorem code_eq_nil_of_size_le
    {id : Nat}
    (h : g.size ≤ id) :
    g.code id = [] := by
  have hslot : g.slots[id]? = none := Array.getElem?_eq_none h
  simp [code, node, hslot, Node.plain]

/-- The order lists the slots that can be reached. -/
theorem Numbered.mem_order_iff
    (hg : g.Numbered)
    {id : NodeId} :
    id ∈ g.order ↔ g.toDigraph.Reachable g.entry id ∧ id < g.size := by
  have hlt : ∀ n nodes, g.toDigraph.Walk g.entry n nodes → n < g.size → g.entry < g.size := by
    intro n nodes w
    induction w with
    | here => exact fun h => h
    | step _ hc ih => exact fun _ => ih (hg.wellFormed.source_lt _ _ hc)
  rw [hg.current]
  by_cases hentry : g.entry < g.size
  · have ho := Digraph.reversePostorder_isSweepOrder hg.wellFormed hentry
    rw [show g.toDigraph.reversePostorder g.entry =
      g.toDigraph.reversePostorder g.toDigraph.entry from rfl, ho.mem_iff]
    constructor
    · intro h
      exact ⟨h, ho.lt_size hg.wellFormed hentry ((ho.mem_iff id).mpr h)⟩
    · exact And.left
  · constructor
    · intro h
      have hnil : g.toDigraph.postorder g.entry = [] := by
        have hrange : g.entry ∉ List.range g.toDigraph.size := fun hmem =>
          hentry (List.mem_range.mp hmem)
        simp [Digraph.postorder, Digraph.leaveOrder, hrange]
      simp [Digraph.reversePostorder, hnil] at h
    · rintro ⟨⟨nodes, w⟩, hid⟩
      exact absurd (hlt id nodes w hid) hentry

/-- Nodes with code on a walk from the entry are part of the order. -/
theorem Numbered.mem_order_of_walk
    (hg : g.Numbered)
    {n m : NodeId}
    {nodes : List NodeId}
    {x : RunStep}
    (w : g.toDigraph.Walk g.entry n nodes)
    (hm : m ∈ nodes)
    (hx : x ∈ g.code m) :
    m ∈ g.order := by
  obtain ⟨f₁, f₂, hf⟩ := List.append_of_mem hm
  refine hg.mem_order_iff.mpr ⟨⟨_, (w.split hf).1⟩, ?_⟩
  by_contra hsize
  rw [code_eq_nil_of_size_le (Nat.le_of_not_lt hsize)] at hx
  exact List.not_mem_nil hx

/-- A place determines its node and its instruction. -/
theorem Numbered.code_inj
    (hg : g.Numbered)
    {a b : NodeId}
    {ins ins' : Instr}
    {d : Loc}
    (ha : a ∈ g.order)
    (hb : b ∈ g.order)
    (h : (ins, d) ∈ g.code a)
    (h' : (ins', d) ∈ g.code b) :
    a = b ∧ ins = ins' := by
  obtain ⟨hlocs, hdisjoint⟩ := List.nodup_flatMap.mp hg.nodup
  obtain rfl : a = b := by
    by_contra hne
    have : Std.Symm (Function.onFun List.Disjoint fun id => (g.node id).locs) :=
      ⟨fun x y hxy l hy hx => hxy hx hy⟩
    exact hdisjoint.forall ha hb hne (List.of_mem_zip h).2 (List.of_mem_zip h').2
  refine ⟨rfl, ?_⟩
  obtain ⟨i, hi, hget⟩ := List.mem_iff_getElem.mp h
  obtain ⟨j, hj, hget'⟩ := List.mem_iff_getElem.mp h'
  simp only [code, List.getElem_zip, Prod.mk.injEq] at hget hget'
  have hij : i = j := (hlocs a ha).getElem_inj_iff.mp (hget.2.trans hget'.2.symm)
  subst hij
  exact hget.1.symm.trans hget'.1

/-- A step of a run stands in one of its nodes, or behind them. -/
theorem trace_append_eq_cases
    {front : List NodeId}
    {tail before after : List RunStep}
    {x : RunStep}
    (h : g.trace front ++ tail = before ++ x :: after) :
    (∃ f₁ m f₂ c₁ c₂, front = f₁ ++ m :: f₂ ∧ g.code m = c₁ ++ x :: c₂ ∧
        before = g.trace f₁ ++ c₁ ∧ after = c₂ ++ g.trace f₂ ++ tail) ∨
      ∃ t, tail = t ++ x :: after ∧ before = g.trace front ++ t := by
  induction front generalizing before with
  | nil => exact Or.inr ⟨before, by simpa [trace] using h, by simp [trace]⟩
  | cons k front ih =>
      have h : g.code k ++ (g.trace front ++ tail) = before ++ x :: after := by
        simpa [trace] using h
      rcases List.append_eq_append_iff.mp h with ⟨rest, hbefore, hrest⟩ | ⟨rest, hcode, hrest⟩
      · rcases ih hrest with ⟨f₁, m, f₂, c₁, c₂, hf, hm, hb, ha⟩ | ⟨t, ht, hb⟩
        · left
          refine ⟨k :: f₁, m, f₂, c₁, c₂, by simp [hf], hm, ?_, ha⟩
          rw [hbefore, hb]
          simp [trace]
        · right
          refine ⟨t, ht, ?_⟩
          rw [hbefore, hb]
          simp [trace]
      · cases rest with
        | nil =>
            have hcode : g.code k = before := by simpa using hcode
            have hrest : g.trace front ++ tail = [] ++ x :: after := hrest.symm
            rcases ih hrest with ⟨f₁, m, f₂, c₁, c₂, hf, hm, hb, ha⟩ | ⟨t, ht, hb⟩
            · left
              refine ⟨k :: f₁, m, f₂, c₁, c₂, by simp [hf], hm, ?_, ha⟩
              have hnil : g.trace f₁ ++ c₁ = [] := hb.symm
              rw [← hcode]
              simpa [trace] using hnil
            · right
              refine ⟨t, ht, ?_⟩
              have hnil : g.trace front ++ t = [] := hb.symm
              rw [← hcode]
              simpa [trace] using hnil
        | cons y rest =>
            obtain ⟨rfl, hafter⟩ := List.cons_eq_cons.mp hrest
            exact Or.inl ⟨[], k, front, before, rest, rfl, hcode, by simp [trace],
              by simp [hafter]⟩

/-- To reach a position is to be the last definition on some walk from the entry. -/
theorem reaches_iff_supplied
    {v : VarId}
    {d : Loc}
    {n : NodeId}
    {position : Nat} :
    g.Reaches params v d n position ↔
      ∃ run, g.RunsTo run n position ∧ Supplied params v run d := by
  constructor
  · rintro (⟨m, ⟨nodes, w₀⟩, front, ins, before, after, w, hm, hcode, hins, hafter⟩ |
      ⟨index, front, hparam, rfl, w, hnone⟩)
    · obtain ⟨front₀, rfl⟩ := w₀.exists_eq_append
      have hwalk : g.toDigraph.Walk g.entry n (front₀ ++ front ++ [n]) := by
        have happ := w₀.append w
        have hhead := w.head_eq
        cases front with
        | nil =>
            obtain rfl : n = m := by simpa using hhead
            simpa using w₀
        | cons k front =>
            obtain rfl : k = m := by simpa using hhead
            simpa using happ
      refine ⟨_, ⟨front₀ ++ front, hwalk, rfl⟩, Or.inl ?_⟩
      rw [lastDefinition_eq_some_iff]
      refine ⟨g.trace front₀ ++ before, ins, after, ?_, hins, hafter⟩
      rw [trace_append, List.append_assoc, hcode, List.append_assoc]
    · exact ⟨_, ⟨front, w, rfl⟩, Or.inr ⟨lastDefinition_eq_none_iff.mpr hnone,
        mem_argumentSites.mpr ⟨index, hparam, rfl⟩⟩⟩
  · rintro ⟨run, ⟨front, w, rfl⟩, hlast | ⟨hnone, hsite⟩⟩
    · left
      obtain ⟨before, ins, after, hcode, hins, hafter⟩ := lastDefinition_eq_some_iff.mp hlast
      rcases trace_append_eq_cases hcode with
        ⟨f₁, m, f₂, c₁, c₂, hf, hm, -, hrest⟩ | ⟨t, ht, -⟩
      · have hnodes : front ++ [n] = f₁ ++ m :: (f₂ ++ [n]) := by simp [hf]
        obtain ⟨w₁, w₂⟩ := w.split hnodes
        refine ⟨m, ⟨_, w₁⟩, m :: f₂, ins, c₁, after, w₂, by simp [hm], ?_, hins, hafter⟩
        rw [hrest]
        simp [trace, hm]
      · have hmem : (ins, d) ∈ (g.code n).take position := by simp [ht]
        exact ⟨n, ⟨_, w⟩, [], ins, t, after, .here, List.mem_of_mem_take hmem,
          by simpa [trace] using ht, hins, hafter⟩
    · obtain ⟨index, hparam, rfl⟩ := mem_argumentSites.mp hsite
      exact Or.inr ⟨index, front, hparam, rfl, w, lastDefinition_eq_none_iff.mp hnone⟩

/-- The steps run are those at some position that code leads to. -/
theorem executes_iff_runsTo
    {run : List RunStep}
    {x : RunStep} :
    g.Executes run x ↔ ∃ n position, g.RunsTo run n position ∧ (g.code n)[position]? = some x := by
  constructor
  · rintro ⟨n, nodes, after, w, htrace⟩
    have htrace : g.trace nodes ++ [] = run ++ x :: after := by simpa using htrace
    rcases trace_append_eq_cases htrace with
      ⟨f₁, m, f₂, c₁, c₂, hf, hm, hrun, -⟩ | ⟨t, ht, -⟩
    · exact ⟨m, c₁.length, ⟨f₁, (w.split hf).1, by simp [hrun, hm]⟩, by simp [hm]⟩
    · simp at ht
  · rintro ⟨n, position, ⟨front, w, rfl⟩, hx⟩
    refine ⟨n, front ++ [n], (g.code n).drop (position + 1), w, ?_⟩
    obtain ⟨hlt, hx⟩ := List.getElem?_eq_some_iff.mp hx
    rw [trace_append, trace_singleton, List.append_assoc, ← hx, List.getElem_cons_drop,
      List.take_append_drop]

/-- Some code is the beginning of what is run along a walk from the entry. -/
def Begins (g : FlowGraph) (run : List RunStep) : Prop :=
  ∃ n nodes after, g.toDigraph.Walk g.entry n nodes ∧ g.trace nodes = run ++ after

theorem Begins.executes
    {a b : List RunStep}
    {x : RunStep}
    (h : g.Begins (a ++ x :: b)) :
    g.Executes a x := by
  obtain ⟨n, nodes, after, w, htrace⟩ := h
  exact ⟨n, nodes, b ++ after, w, by simp [htrace]⟩

theorem Begins.of_append
    {a b : List RunStep}
    (h : g.Begins (a ++ b)) :
    g.Begins a := by
  obtain ⟨n, nodes, after, w, htrace⟩ := h
  exact ⟨n, nodes, b ++ after, w, by simp [htrace]⟩

theorem begins_trace
    {n : NodeId}
    {nodes : List NodeId}
    (w : g.toDigraph.Walk g.entry n nodes) :
    g.Begins (g.trace nodes) :=
  ⟨n, nodes, [], w, by simp⟩

end FlowGraph

end DalvikDecompiler
