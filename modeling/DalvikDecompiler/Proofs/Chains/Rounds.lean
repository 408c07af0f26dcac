import DalvikDecompiler.Proofs.Chains.DeadCode
import DalvikDecompiler.Proofs.Chains.Moves

/-!
# Propagation comes to an end

**Input.** A graph and chains that keep every link at both of its ends.  The
chains need not be those of the graph.

A constant has no operands, so a copy takes reads away and adds none.  Any other
value goes to the only use of its definition and reads each variable once for
each time that the definition did; the use loses its read.  The definition is
left without a use, even if it reads the variable that it defines: a link from
itself would be a second use.  So it is removed, and what it read is read no
more often than before.

**Results.**
* `Allowed.shortens`: each move leaves a read less, and no instruction more.
* `rounds_settled`: with a bound above the number of reads, rounds are repeated
  until one makes no move.
* `run_settled`: propagation ends with a round that makes no move, and each move
  takes its definition away or leaves less reads.
-/

namespace DalvikDecompiler

open Symbolic (VarId Expr Instr)

namespace Natural

/-- A total without one of its numbers. -/
theorem total_map_eraseIdx
    {α : Type}
    (weight : α → Nat)
    (xs : List α)
    {i : Nat}
    {x : α}
    (h : xs[i]? = some x) :
    total ((xs.eraseIdx i).map weight) + weight x = total (xs.map weight) := by
  induction xs generalizing i with
  | nil => simp at h
  | cons y xs ih =>
      cases i with
      | zero =>
          obtain rfl : y = x := by simpa using h
          simp [total, Nat.add_comm]
      | succ i =>
          have h := ih (by simpa using h)
          simp [total]
          omega

end Natural

namespace Symbolic

/-- Each read of a variable becomes as many reads as the expression in its place has. -/
theorem Instr.length_reads_substitute
    (ins : Instr)
    (id : VarId)
    (value : Expr) :
    (ins.substitute id value).reads.length + ins.readsOf id =
      ins.reads.length + ins.readsOf id * value.varsRead.length := by
  rw [reads_substitute, readsOf]
  induction ins.reads with
  | nil => simp
  | cons v vs ih =>
      rw [List.flatMap_cons, List.length_append, Expr.readsFor]
      by_cases h : v = id
      · rw [if_pos h, h, List.count_cons_self, Nat.add_one_mul, List.length_cons]
        omega
      · rw [if_neg h, List.count_cons_of_ne (by simpa using h), List.length_singleton,
          List.length_cons]
        omega

end Symbolic

namespace FlowGraph

variable {g : FlowGraph} {loc k : Loc} {ins : Instr}

/-- The number of reads of some code. -/
def readsIn (code : List Instr) : Nat :=
  Natural.total (code.map fun ins => ins.reads.length)

/-- The number of reads when the code of a node changes. -/
theorem readCount_modifyNode
    {id : NodeId}
    (f : Node → Node)
    (hid : id < g.size) :
    (g.modifyNode id f).readCount + readsIn (g.node id).ins =
      g.readCount + readsIn (f (g.node id)).ins :=
  total_modifyNode (fun n => readsIn n.ins) f hid

theorem readCount_modifyInstr
    (h : g.instrAt loc = some ins)
    (f : Instr → Instr) :
    (g.modifyInstr loc f).readCount + ins.reads.length = g.readCount + (f ins).reads.length := by
  obtain ⟨id, position, hid, hposition, hins, hsize⟩ := exists_of_instrAt h
  have hcode : readsIn ((g.node id).ins.modify position f) + ins.reads.length =
      readsIn (g.node id).ins + (f ins).reads.length :=
    Natural.total_map_modify _ f _ hins
  have hnode : (g.modifyInstr loc f).readCount + readsIn (g.node id).ins =
      g.readCount + readsIn ((g.node id).ins.modify position f) := by
    simp only [modifyInstr, hid, hposition]
    exact readCount_modifyNode _ hsize
  omega

theorem readCount_removeInstr
    (h : g.instrAt loc = some ins) :
    (g.removeInstr loc).readCount + ins.reads.length = g.readCount := by
  obtain ⟨id, position, hid, hposition, hins, hsize⟩ := exists_of_instrAt h
  have hcode : readsIn ((g.node id).ins.eraseIdx position) + ins.reads.length =
      readsIn (g.node id).ins :=
    Natural.total_map_eraseIdx _ _ hins
  have hsame : ({ g with locIndex := OrderedMap.erase loc g.locIndex } : FlowGraph).node id =
      g.node id := rfl
  have hnode : (g.removeInstr loc).readCount + readsIn (g.node id).ins =
      g.readCount + readsIn ((g.node id).ins.eraseIdx position) := by
    simp only [removeInstr, hid, hsame, hposition]
    exact readCount_modifyNode (g := { g with locIndex := OrderedMap.erase loc g.locIndex }) _ hsize
  omega

/-- A change at one place leaves the instructions at all others. -/
theorem instrAt_modifyInstr_of_ne
    (f : Instr → Instr)
    (hne : k ≠ loc) :
    (g.modifyInstr loc f).instrAt k = g.instrAt k := by
  unfold modifyInstr
  cases hid : g.nodeAt loc with
  | none => rfl
  | some id =>
      simp only []
      cases hposition : (g.node id).locs.idxOf? loc with
      | none => rfl
      | some position =>
          have hsize : id < g.size := by
            by_contra hsize
            have hslot : g.slots[id]? = none := Array.getElem?_eq_none (Nat.le_of_not_lt hsize)
            simp [node, hslot, Node.plain] at hposition
          refine Option.bind_congr fun n _ => ?_
          rw [node_modifyNode g n _ hsize]
          by_cases hn : n = id
          · subst hn
            rw [if_pos rfl]
            refine Option.bind_congr fun other hother => ?_
            have hdiffer : position ≠ other := by
              rintro rfl
              obtain ⟨hlt, hloc, -⟩ := List.idxOf?_eq_some_iff.mp hposition
              obtain ⟨_, hk, -⟩ := List.idxOf?_eq_some_iff.mp hother
              exact hne (hk.symm.trans hloc)
            exact List.getElem?_modify_ne _ _ hdiffer
          · rw [if_neg hn]

theorem instrAt_removeInstr_self
    (g : FlowGraph)
    (loc : Loc) :
    (g.removeInstr loc).instrAt loc = none := by
  have hnode : (g.removeInstr loc).nodeAt loc = none := by
    unfold removeInstr
    cases hid : g.nodeAt loc with
    | none => exact hid
    | some id =>
        simp only []
        split
        · exact (OrderedMap.lookup_erase _).trans (if_pos (beq_self_eq_true loc))
        · exact (OrderedMap.lookup_erase _).trans (if_pos (beq_self_eq_true loc))
  rw [instrAt, hnode]
  rfl

end FlowGraph

namespace Propagation

variable {s s' s'' : Propagation} {use : Loc} {ins : Instr} {move : Move}

section Moves

theorem Allowed.not_isUsed
    (h : s.Allowed use ins move)
    (hc : s.chains.Mutual)
    (hsingle : (s.chains.uses move.target move.source).length ≤ 1) :
    (s.movedChains use move).isUsed move.target move.source = false := by
  have huses := h.uses_eq hc hsingle
  exact not_isUsed_movedChains hc h.source_ne fun y hy => by
    simpa [huses] using (hc _ _ _).mpr hy

/-- A move has been made: a read less is left, and the definition has gone or all instructions are
still there. -/
structure Shortens (source : Loc) (isConst : Bool) (s s' : Propagation) : Prop where
  moves_eq : s'.moves = s.moves + 1
  mutually : s'.chains.Mutual
  readCount_lt : s'.graph.readCount < s.graph.readCount
  instrs : s'.graph.instrAt source = none ∧ s'.graph.instrCount + 1 = s.graph.instrCount ∨
    isConst = true ∧ s'.graph.instrCount = s.graph.instrCount

/-- The use reads what the value reads, and the variable less often than before. -/
theorem Allowed.readCount_movedGraph
    (h : s.Allowed use ins move) :
    (s.movedGraph use move).readCount < s.graph.readCount + move.value.varsRead.length := by
  have hgraph : (s.movedGraph use move).readCount + ins.reads.length =
      s.graph.readCount + (ins.substitute move.target move.value).reads.length :=
    FlowGraph.readCount_modifyInstr h.instrAt_use _
  have hreads := ins.length_reads_substitute move.target move.value
  have hpos : 0 < ins.readsOf move.target := List.count_pos_iff.mpr h.reads
  rcases h.permitted with hconst | ⟨-, honce, -, -⟩
  · rw [varsRead_of_isConst hconst, List.length_nil] at hreads ⊢
    omega
  · have hone : ins.readsOf move.target = 1 := Nat.le_antisymm honce hpos
    rw [hone] at hreads
    omega

/-- Each move leaves a read less and no instruction more. -/
theorem Allowed.shortens
    (h : s.Allowed use ins move)
    (hc : s.chains.Mutual) :
    Shortens move.source move.value.isConst s (s.apply use move) := by
  have hmutual := mutual_movedChains hc h.source_ne
  have hinstrs : (s.movedGraph use move).instrCount = s.graph.instrCount :=
    s.graph.instrCount_modifyInstr use _
  have hreads := h.readCount_movedGraph
  cases hused : (s.movedChains use move).isUsed move.target move.source with
  | true =>
      have hconst : move.value.isConst = true := by
        by_contra hnot
        rw [h.not_isUsed hc (h.permitted.resolve_left hnot).1] at hused
        cases hused
      rw [varsRead_of_isConst hconst] at hreads
      rw [apply_of_isUsed hused]
      exact ⟨rfl, hmutual, hreads, .inr ⟨hconst, hinstrs⟩⟩
  | false =>
      obtain ⟨definition, hdefinition, -, hvalue⟩ := h.assigns
      have hsource : (s.movedGraph use move).instrAt move.source = some definition :=
        (FlowGraph.instrAt_modifyInstr_of_ne _ h.source_ne).trans hdefinition
      have hremoved := FlowGraph.readCount_removeInstr hsource
      rw [Symbolic.Instr.reads_of_value? hvalue] at hremoved
      rw [apply_of_not_isUsed hused]
      refine ⟨rfl, mutual_foldl_forgetUse _ hmutual, ?_,
        .inl ⟨FlowGraph.instrAt_removeInstr_self _ _,
          (FlowGraph.instrCount_removeInstr hsource).trans hinstrs⟩⟩
      exact Nat.lt_of_add_lt_add_right (hremoved.trans_lt hreads)

end Moves

section Rounds

/-- Some moves have been made, each for a read. -/
structure Advances (s s' : Propagation) : Prop where
  mutually : s'.chains.Mutual
  moves_le : s.moves ≤ s'.moves
  bounded : s'.moves + s'.graph.readCount ≤ s.moves + s.graph.readCount
  eq_of_moves_eq : s'.moves = s.moves → s' = s

theorem Advances.refl
    (hc : s.chains.Mutual) :
    Advances s s :=
  ⟨hc, Nat.le_refl _, Nat.le_refl _, fun _ => rfl⟩

theorem Advances.trans
    (h : Advances s s')
    (h' : Advances s' s'') :
    Advances s s'' where
  mutually := h'.mutually
  moves_le := Nat.le_trans h.moves_le h'.moves_le
  bounded := Nat.le_trans h'.bounded h.bounded
  eq_of_moves_eq hsame := by
    have hfirst : s'.moves = s.moves :=
      Nat.le_antisymm (Nat.le_trans h'.moves_le (Nat.le_of_eq hsame)) h.moves_le
    rw [h'.eq_of_moves_eq (hsame.trans hfirst.symm), h.eq_of_moves_eq hfirst]

theorem advances_moveInto
    (hc : s.chains.Mutual)
    (use : Loc) :
    Advances s (s.moveInto use) := by
  rcases s.moveInto_cases use with hsame | ⟨ins, move, hallowed, hmoved⟩
  · exact hsame.symm ▸ .refl hc
  · have h := hallowed.shortens hc
    rw [hmoved]
    exact ⟨h.mutually, by have := h.moves_eq; omega,
      by have := h.moves_eq; have := h.readCount_lt; omega,
      fun hsame => absurd (hsame.symm.trans h.moves_eq) (Nat.ne_of_lt (Nat.lt_succ_self _))⟩

/-- What advances at each step advances over all of them. -/
theorem advances_foldl
    {α : Type}
    {f : Propagation → α → Propagation}
    (h : ∀ s a, s.chains.Mutual → Advances s (f s a))
    (xs : List α)
    (hc : s.chains.Mutual) :
    Advances s (xs.foldl f s) := by
  induction xs generalizing s with
  | nil => exact .refl hc
  | cons a xs ih =>
      have hfirst := h s a hc
      exact hfirst.trans (ih hfirst.mutually)

theorem advances_round
    (hc : s.chains.Mutual) :
    Advances s s.round :=
  advances_foldl (fun s id hc =>
    advances_foldl (fun _ use hc => advances_moveInto hc use) (s.graph.node id).locs hc) _ hc

/-- With a bound above the number of reads, rounds are repeated until one makes no move. -/
theorem rounds_settled
    {bound : Nat}
    (hbound : s.graph.readCount < bound)
    (hc : s.chains.Mutual) :
    (rounds bound s).round = rounds bound s ∧
      ∃ n, n ≤ s.graph.readCount ∧ rounds bound s = round^[n] s := by
  induction bound generalizing s with
  | zero => exact absurd hbound (Nat.not_lt_zero _)
  | succ bound ih =>
      have hround := advances_round hc
      unfold rounds
      simp only []
      split
      · rename_i hsame
        have hstill := hround.eq_of_moves_eq hsame
        rw [hstill]
        exact ⟨hstill, 0, Nat.zero_le _, rfl⟩
      · rename_i hmoved
        have hmore : s.moves < s.round.moves :=
          Nat.lt_of_le_of_ne hround.moves_le (Ne.symm hmoved)
        have hfewer : s.round.graph.readCount < s.graph.readCount := by
          have := hround.bounded
          omega
        obtain ⟨hsettled, n, hn, hrounds⟩ := ih (by omega) hround.mutually
        exact ⟨hsettled, n + 1, by omega, hrounds⟩

end Rounds

/-- **Propagation comes to an end.**  Finitely many rounds, no more than there are reads, lead to
one that makes no move, whatever links the chains have as long as they have them at both ends.  A
step keeps them so; and it makes no move, or it makes an allowed one, which takes the definition
away or, if the value is a constant, leaves all instructions and less reads. -/
theorem run_settled
    (g : FlowGraph)
    (c : Chains)
    (hc : c.Mutual) :
    (∃ n, n ≤ g.readCount ∧ run g c = round^[n] { graph := g, chains := c, moves := 0 } ∧
      (run g c).round = run g c) ∧
    ∀ (s : Propagation) (use : Loc), s.chains.Mutual →
      (s.moveInto use).chains.Mutual ∧
        (s.moveInto use = s ∨
          ∃ ins move, s.Allowed use ins move ∧ s.moveInto use = s.apply use move ∧
            Shortens move.source move.value.isConst s (s.moveInto use)) := by
  refine ⟨?_, fun s use hs => ⟨(advances_moveInto hs use).mutually, ?_⟩⟩
  · obtain ⟨hsettled, n, hn, hrun⟩ :=
      rounds_settled (s := { graph := g, chains := c, moves := 0 }) (Nat.lt_succ_self _) hc
    exact ⟨n, hn, hrun, hsettled⟩
  · refine (s.moveInto_cases use).imp_right ?_
    rintro ⟨ins, move, hallowed, hmoved⟩
    exact ⟨ins, move, hallowed, hmoved, hmoved ▸ hallowed.shortens hs⟩

/-- A constant that is negated in its own variable and returned. -/
def negatedConstant : FlowGraph :=
  { FlowGraph.empty with
    slots := #[FlowGraph.placedSlot .statement
      [(.assign (some 0) (.const (.int 3)), 0), (.assign (some 0) (.unary .neg (.var 0) "I"), 1),
        (.ret (some (.var 0)), 2)] [] []]
    order := [0]
    locIndex := [(0, 0), (1, 0), (2, 0)] }

/-- Both definitions of the variable have gone when no move can be made any more. -/
theorem run_settled_negatedConstant :
    (Chains.ofGraph negatedConstant []).Mutual ∧
      let result := run negatedConstant (Chains.ofGraph negatedConstant [])
      result.round = result ∧ result.moves = 2 ∧ result.graph.instrCount = 1 := by
  have hmutual : (Chains.ofGraph negatedConstant []).Mutual :=
    Chains.mutual_ofGraph _ _
  obtain ⟨⟨n, -, -, hsettled⟩, -⟩ := run_settled negatedConstant _ hmutual
  exact ⟨hmutual, hsettled, by cbv, by cbv⟩

end Propagation
end DalvikDecompiler
