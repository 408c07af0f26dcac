import DalvikDecompiler.Chains.Propagation
import DalvikDecompiler.Proofs.FlowGraph.Places
import DalvikDecompiler.Proofs.FlowGraph.Wiring

/-!
# Ways between two places

**Input.** A flow graph whose index finds the places of its instructions.

A run that comes to a place may go on from there as any other run does.  What
can be run between a definition and a use, without running the definition
again, is found by searching backwards from the use.

**Results.**
* `Executes.splice`: two runs that meet at a place can be exchanged up to there.
* `Finds.undisturbed_sound`: if a value can move from a definition to a use, then
  no step between the two blocks it on any walk.
* `isUndisturbed_passages`: on no walk through nodes of the graph, what is run in
  between changes what the value reads or has an effect, and a call or a read of the
  heap is not used twice.
-/

namespace DalvikDecompiler

namespace Symbolic

/-- What a value may pass does not define what the value reads, and has no effect unless the value
stays the same whenever it is evaluated. -/
theorem Instr.blocks_eq_false_iff
    {value : Expr}
    {ins : Instr} :
    ins.blocks value = false ↔
      (∀ v, ins.target? = some v → v ∉ value.varsRead) ∧
        (value.varsRead ≠ [] ∨ value.readsHeap = true ∨ value.hasEffect = true →
          ins.hasEffect = false) := by
  unfold blocks
  rw [Bool.or_eq_false_iff]
  refine and_congr ?_ ?_
  · cases ins.target? <;> simp
  · cases ins.hasEffect <;> cases value.hasEffect <;> cases value.readsHeap <;> simp

end Symbolic

open Symbolic (VarId Expr Instr)

namespace Digraph

section Search

variable {next : NodeId → List NodeId} {unseen stack : List NodeId} {m x y : NodeId}

/-- A search finds the unseen nodes that it starts from. -/
theorem mem_search_of_mem_stack
    (hm : m ∈ stack)
    (hunseen : m ∈ unseen) :
    m ∈ search next unseen stack := by
  induction unseen, stack using search.induct next with
  | case1 unseen => cases hm
  | case2 unseen n stack hn ih =>
      rw [search, if_pos hn]
      by_cases heq : m = n
      · simp [heq]
      · refine List.mem_cons_of_mem _ (ih ?_ ((List.mem_erase_of_ne heq).mpr hunseen))
        exact List.mem_append_right _ ((List.mem_cons.mp hm).resolve_left heq)
  | case3 unseen n stack hn ih =>
      rw [search, if_neg hn]
      rcases List.mem_cons.mp hm with rfl | hm
      · exact absurd hunseen hn
      · exact ih hm hunseen

/-- What a search finds is closed under going on to unseen nodes. -/
theorem mem_search_of_next
    (hx : x ∈ search next unseen stack)
    (hy : y ∈ next x)
    (hunseen : y ∈ unseen) :
    y ∈ search next unseen stack := by
  induction unseen, stack using search.induct next with
  | case1 unseen => simp [search] at hx
  | case2 unseen n stack hn ih =>
      rw [search, if_pos hn] at hx ⊢
      by_cases heq : y = n
      · simp [heq]
      · have hrest := (List.mem_erase_of_ne heq).mpr hunseen
        refine List.mem_cons_of_mem _ ?_
        rcases List.mem_cons.mp hx with rfl | hx
        · exact mem_search_of_mem_stack (List.mem_append_left _ (List.mem_reverse.mpr hy)) hrest
        · exact ih hx hrest
  | case3 unseen n stack hn ih =>
      rw [search, if_neg hn] at hx ⊢
      exact ih hx hunseen

end Search

/-- A walk of at least two nodes starts with an edge. -/
theorem Walk.uncons
    {g : Digraph}
    {a b c e : NodeId}
    {rest : List NodeId}
    (w : g.Walk a b (e :: c :: rest)) :
    c ∈ g.succs e ∧ g.Walk c b (c :: rest) := by
  have hnodes : e :: c :: rest = [e] ++ c :: rest := rfl
  obtain ⟨w₁, w₂⟩ := w.split hnodes
  refine ⟨?_, w₂⟩
  generalize hlist : [e] ++ [c] = nodes at w₁
  cases w₁ with
  | here => simp at hlist
  | @step d _ _ w₁ hc =>
      obtain ⟨rfl, -⟩ := List.append_inj' hlist rfl
      obtain rfl : d = e := by simpa using w₁.target_mem
      exact hc

end Digraph

namespace FlowGraph

variable {g : FlowGraph} {source target k : NodeId}

section Inner

theorem mem_inner
    (hlt : k < g.size)
    (hsource : k ≠ source)
    (htarget : k ≠ target) :
    k ∈ (List.range g.size).filter fun id => id != source && id != target := by
  simp [hlt, hsource, htarget]

/-- The nodes on a walk that avoids both ends are found. -/
theorem mem_innerNodes_of_walk
    (hwf : g.toDigraph.WellFormed)
    {between : List NodeId}
    (w : g.toDigraph.Walk k target (k :: between ++ [target]))
    (hsource : source ∉ k :: between)
    (htarget : target ∉ k :: between) :
    k ∈ g.innerNodes source target := by
  induction between generalizing k with
  | nil =>
      have hedge := w.uncons.1
      have hlt := hwf.source_lt k target hedge
      refine Digraph.mem_search_of_mem_stack ?_ (mem_inner hlt ?_ ?_)
      · exact List.mem_reverse.mpr ((hwf.mem_preds k target).mpr hedge)
      · exact fun heq => hsource (by simp [heq])
      · exact fun heq => htarget (by simp [heq])
  | cons b between ih =>
      obtain ⟨hedge, w'⟩ := w.uncons
      have hlt := hwf.source_lt k b hedge
      have hb := ih w' (fun h => hsource (List.mem_cons_of_mem _ h))
        fun h => htarget (List.mem_cons_of_mem _ h)
      refine Digraph.mem_search_of_next hb ((hwf.mem_preds k b).mpr hedge) (mem_inner hlt ?_ ?_)
      · exact fun heq => hsource (by simp [heq])
      · exact fun heq => htarget (by simp [heq])

/-- A node between two others, on a walk that does not come back to its start, is the end or is
found. -/
theorem mem_innerNodes_of_mem
    (hwf : g.toDigraph.WellFormed)
    {between : List NodeId}
    (w : g.toDigraph.Walk source target (source :: between ++ [target]))
    (hsource : source ∉ between)
    (hk : k ∈ between)
    (hne : k ≠ target) :
    k ∈ g.innerNodes source target := by
  obtain ⟨front, behind, rfl⟩ := List.append_of_mem hk
  -- The walk is cut off where it comes to its end for the first time behind the node.
  obtain ⟨first, rest, hrest, hfirst⟩ : ∃ first rest,
      behind ++ [target] = first ++ target :: rest ∧ target ∉ first :=
    List.eq_append_cons_of_mem (by simp)
  have hnodes : source :: (front ++ k :: behind) ++ [target] =
      (source :: front) ++ k :: (behind ++ [target]) := by simp
  have w₂ := (w.split hnodes).2
  have hnodes₂ : k :: (behind ++ [target]) = (k :: first) ++ target :: rest := by simp [hrest]
  have w₃ := (w₂.split hnodes₂).1
  have hsub : ∀ a, a ∈ first → a = target ∨ a ∈ behind := by
    intro a ha
    have hmem : a ∈ behind ++ [target] := by simp [hrest, ha]
    simpa [or_comm] using hmem
  refine mem_innerNodes_of_walk hwf w₃ ?_ ?_
  · intro hmem
    rcases List.mem_cons.mp hmem with rfl | hmem
    · exact hsource (by simp)
    · rcases hsub source hmem with rfl | hmem'
      · exact hfirst hmem
      · exact hsource (by simp [hmem'])
  · intro hmem
    rcases List.mem_cons.mp hmem with rfl | hmem
    · exact hne rfl
    · exact hfirst hmem

/-- A walk that comes to its end on the way is one that may come back to it. -/
theorem reenters_of_mem
    (hwf : g.toDigraph.WellFormed)
    {between : List NodeId}
    (w : g.toDigraph.Walk source target (source :: between ++ [target]))
    (hsource : source ∉ between)
    (htarget : target ∈ between) :
    g.reenters source target = true := by
  obtain ⟨front, behind, rfl⟩ := List.append_of_mem htarget
  have hne : source ≠ target := fun heq => hsource (by simp [heq])
  have hnodes : source :: (front ++ target :: behind) ++ [target] =
      (source :: front) ++ target :: (behind ++ [target]) := by simp
  have w₂ := (w.split hnodes).2
  have hany : ∃ id, id ∈ target :: g.innerNodes source target ∧ target ∈ g.flowPreds id := by
    cases behind with
    | nil => exact ⟨target, by simp, (hwf.mem_preds target target).mpr w₂.uncons.1⟩
    | cons b behind =>
        have hb := (hwf.mem_preds target b).mpr w₂.uncons.1
        by_cases heq : b = target
        · exact ⟨target, by simp, heq ▸ hb⟩
        · refine ⟨b, List.mem_cons_of_mem _ ?_, hb⟩
          exact mem_innerNodes_of_mem hwf w hsource (by simp) heq
  simp only [reenters, Bool.and_eq_true, bne_iff_ne, List.any_eq_true, List.contains_iff_mem]
  exact ⟨hne, hany⟩

end Inner

/-- Edges are known at both ends, and the index finds the places of some nodes, which are given out
once.  A node that an edge leads to is one of these, or has no places. -/
structure Finds (g : FlowGraph) (known : NodeId → Prop) : Prop where
  wellFormed : g.toDigraph.WellFormed
  length_eq : ∀ n, known n → (g.node n).locs.length = (g.node n).ins.length
  nodup : ∀ n, known n → (g.node n).locs.Nodup
  nodeAt_eq : ∀ n, known n → ∀ l, l ∈ (g.node n).locs → g.nodeAt l = some n
  passed : ∀ a b, b ∈ g.toDigraph.succs a → ∀ l, l ∈ (g.node b).locs → known b

section Places

variable {known : NodeId → Prop}
variable {a b after : List RunStep} {d u : Loc} {ins ins' : Instr} {id m n start stop : NodeId}
variable {nodes : List NodeId}

theorem Indexed.finds
    (hg : g.Indexed) :
    g.Finds (· ∈ g.order) where
  wellFormed := hg.numbered.wellFormed
  length_eq := hg.numbered.length_eq
  nodup := fun n _ => hg.nodup_locs n
  nodeAt_eq := fun n _ l hl => (hg.nodeAt_iff l n).mpr hl
  passed := fun _ b _ l hl => hg.mem_order b l hl

theorem map_fst_code_subset
    (g : FlowGraph)
    (id : NodeId) :
    (g.code id).map Prod.fst ⊆ (g.node id).ins := by
  intro ins hins
  obtain ⟨x, hx, rfl⟩ := List.mem_map.mp hins
  exact (List.of_mem_zip hx).1

theorem Finds.map_fst_code
    (hg : g.Finds known)
    (hid : known id) :
    (g.code id).map Prod.fst = (g.node id).ins :=
  List.map_fst_zip (Nat.le_of_eq (hg.length_eq id hid).symm)

theorem Finds.map_snd_code
    (hg : g.Finds known)
    (hid : known id) :
    (g.code id).map Prod.snd = (g.node id).locs :=
  List.map_snd_zip (Nat.le_of_eq (hg.length_eq id hid))

/-- A node with code on a walk from a node with places is one whose places are found. -/
theorem Finds.known_of_code
    (hg : g.Finds known)
    (hstart : ∀ l, l ∈ (g.node start).locs → known start)
    (w : g.toDigraph.Walk start stop nodes)
    (hid : id ∈ nodes)
    {x : RunStep}
    (h : x ∈ g.code id) :
    known id := by
  have hx : x.2 ∈ (g.node id).locs := (List.of_mem_zip h).2
  induction w with
  | here =>
      obtain rfl := List.mem_singleton.mp hid
      exact hstart x.2 hx
  | step w hedge ih =>
      rcases List.mem_append.mp hid with hid | hid
      · exact ih hid
      · obtain rfl := List.mem_singleton.mp hid
        exact hg.passed _ _ hedge x.2 hx

theorem Finds.same_node
    (hg : g.Finds known)
    (hm : known m)
    (hn : known n)
    (h : (ins, d) ∈ g.code m)
    (h' : (ins', d) ∈ g.code n) :
    m = n := by
  have hfound := hg.nodeAt_eq m hm d (List.of_mem_zip h).2
  exact Option.some.inj (hfound.symm.trans (hg.nodeAt_eq n hn d (List.of_mem_zip h').2))

/-- No other step of a node has the place of one. -/
theorem Finds.place_ne
    (hg : g.Finds known)
    (hm : known m)
    {c₁ c₂ : List RunStep}
    {x : RunStep}
    (h : g.code m = c₁ ++ (ins, d) :: c₂)
    (hx : x ∈ c₁ ∨ x ∈ c₂) :
    x.2 ≠ d := by
  have hnodup : ((c₁ ++ (ins, d) :: c₂).map Prod.snd).Nodup := by
    rw [← h, hg.map_snd_code hm]
    exact hg.nodup m hm
  rw [List.map_append, List.map_cons] at hnodup
  obtain ⟨-, htail, hdisjoint⟩ := List.nodup_append.mp hnodup
  intro heq
  rcases hx with hx | hx
  · exact hdisjoint x.2 (List.mem_map.mpr ⟨x, hx, rfl⟩) d (by simp) heq
  · exact (List.nodup_cons.mp htail).1 (List.mem_map.mpr ⟨x, hx, heq⟩)

/-- A place divides the code of its node in one way. -/
theorem Finds.split_unique
    (hg : g.Finds known)
    (hknown : known m)
    (hknown' : known n)
    {c₁ c₂ e₁ e₂ : List RunStep}
    (h : g.code m = c₁ ++ (ins, d) :: c₂)
    (h' : g.code n = e₁ ++ (ins', d) :: e₂) :
    m = n ∧ c₁ = e₁ ∧ ins = ins' ∧ c₂ = e₂ := by
  have hm : (ins, d) ∈ g.code m := by simp [h]
  have hn : (ins', d) ∈ g.code n := by simp [h']
  obtain rfl := hg.same_node hknown hknown' hm hn
  have heq : c₁ ++ (ins, d) :: c₂ = e₁ ++ (ins', d) :: e₂ := h.symm.trans h'
  rcases List.append_eq_append_iff.mp heq with ⟨t, rfl, ht⟩ | ⟨t, rfl, ht⟩
  · cases t with
    | nil =>
        obtain ⟨hstep, rfl⟩ := List.cons_eq_cons.mp ht
        exact ⟨rfl, by simp, (Prod.mk.inj hstep).1, rfl⟩
    | cons y t =>
        obtain ⟨rfl, -⟩ := List.cons_eq_cons.mp ht
        exact absurd rfl (hg.place_ne hknown h' (x := (ins, d)) (Or.inl (by simp)))
  · cases t with
    | nil =>
        obtain ⟨hstep, rfl⟩ := List.cons_eq_cons.mp ht
        exact ⟨rfl, by simp, (Prod.mk.inj hstep).1.symm, rfl⟩
    | cons y t =>
        obtain ⟨rfl, -⟩ := List.cons_eq_cons.mp ht
        exact absurd rfl (hg.place_ne hknown h (x := (ins', d)) (Or.inl (by simp)))

theorem Finds.idxOf_code
    (hg : g.Finds known)
    (hm : known m)
    {c₁ c₂ : List RunStep}
    (h : g.code m = c₁ ++ (ins, d) :: c₂) :
    (g.node m).locs.idxOf? d = some c₁.length := by
  have hlocs := hg.map_snd_code hm
  have hnot : ∀ x, x ∈ c₁ → x.2 ≠ d := fun x hx => hg.place_ne hm h (Or.inl hx)
  rw [← hlocs, h, List.map_append, List.map_cons]
  clear hlocs h hm
  induction c₁ with
  | nil => simp [List.idxOf?_cons]
  | cons x c₁ ih =>
      have hx : (x.2 == d) = false := by simpa using hnot x (by simp)
      simp [List.idxOf?_cons, hx, ih fun y hy => hnot y (by simp [hy])]

theorem Indexed.mem_order_of_code
    (hg : g.Indexed)
    {x : RunStep}
    (h : x ∈ g.code id) :
    id ∈ g.order :=
  hg.mem_order id x.2 (List.of_mem_zip h).2

theorem Indexed.split_unique
    (hg : g.Indexed)
    {c₁ c₂ e₁ e₂ : List RunStep}
    (h : g.code m = c₁ ++ (ins, d) :: c₂)
    (h' : g.code n = e₁ ++ (ins', d) :: e₂) :
    m = n ∧ c₁ = e₁ ∧ ins = ins' ∧ c₂ = e₂ :=
  hg.finds.split_unique (hg.mem_order_of_code (x := (ins, d)) (by simp [h]))
    (hg.mem_order_of_code (x := (ins', d)) (by simp [h'])) h h'

theorem Indexed.place_ne
    (hg : g.Indexed)
    {c₁ c₂ : List RunStep}
    {x : RunStep}
    (h : g.code m = c₁ ++ (ins, d) :: c₂)
    (hx : x ∈ c₁ ∨ x ∈ c₂) :
    x.2 ≠ d :=
  hg.finds.place_ne (hg.mem_order_of_code (x := (ins, d)) (by simp [h])) h hx

/-- Two runs that meet at a place can be exchanged up to there. -/
theorem Executes.splice
    (hg : g.Indexed)
    {x : RunStep}
    {a' : List RunStep}
    (h : g.Executes (a ++ (ins, d) :: b) x)
    (h' : g.Executes a' (ins', d)) :
    g.Executes (a' ++ (ins, d) :: b) x := by
  obtain ⟨n, nodes, after, w, htrace⟩ := h
  obtain ⟨n', nodes', after', w', htrace'⟩ := h'
  have htrace : g.trace nodes ++ [] = a ++ (ins, d) :: (b ++ x :: after) := by simpa using htrace
  have htrace' : g.trace nodes' ++ [] = a' ++ (ins', d) :: after' := by simpa using htrace'
  rcases trace_append_eq_cases htrace with ⟨f₁, m, f₂, c₁, c₂, hf, hm, -, hrest⟩ | ⟨t, ht, -⟩
  · rcases trace_append_eq_cases htrace' with
      ⟨e₁, m', e₂, c₁', c₂', he, hm', hrun', -⟩ | ⟨t, ht, -⟩
    · obtain ⟨rfl, rfl, -, rfl⟩ := hg.split_unique hm hm'
      have w₁ := (w'.split he).1
      have w₂ := (w.split hf).2
      refine ⟨n, _, after, w₁.append w₂, ?_⟩
      simp only [List.append_nil] at hrest
      rw [hrun', List.tail_cons, trace_append, trace_append, trace_singleton, hm]
      simp [hrest]
    · simp at ht
  · simp at ht

/-- A walk that runs the code between two places stays in one node, or leaves the node of the first
one by its end and comes to the node of the second one by its start. -/
theorem between_of_walk
    (w : g.toDigraph.Walk start stop nodes)
    (htrace : g.trace nodes = a ++ (ins, d) :: b ++ (ins', u) :: after) :
    (∃ m c₁ c₂, m ∈ nodes ∧ g.code m = c₁ ++ (ins, d) :: (b ++ (ins', u) :: c₂)) ∨
      ∃ m n c₁ c₂ c₃ c₄ between,
        g.code m = c₁ ++ (ins, d) :: c₂ ∧ g.code n = c₃ ++ (ins', u) :: c₄ ∧
        b = c₂ ++ g.trace between ++ c₃ ∧ m :: between ++ [n] ⊆ nodes ∧
        g.toDigraph.Walk m n (m :: between ++ [n]) := by
  have htrace : g.trace nodes ++ [] = a ++ (ins, d) :: (b ++ (ins', u) :: after) := by
    simpa using htrace
  rcases trace_append_eq_cases htrace with ⟨f₁, m, f₂, c₁, c₂, hf, hm, -, hrest⟩ | ⟨t, ht, -⟩
  · have w₂ := (w.split hf).2
    have hrest : c₂ ++ g.trace f₂ = b ++ (ins', u) :: after := by simpa using hrest.symm
    have hfar : ∀ t, b = c₂ ++ t → g.trace f₂ = t ++ (ins', u) :: after →
        ∃ n c₃ c₄ between, g.code n = c₃ ++ (ins', u) :: c₄ ∧
          b = c₂ ++ g.trace between ++ c₃ ∧ m :: between ++ [n] ⊆ nodes ∧
          g.toDigraph.Walk m n (m :: between ++ [n]) := by
      intro t hb ht
      have ht : g.trace f₂ ++ [] = t ++ (ins', u) :: after := by simpa using ht
      rcases trace_append_eq_cases ht with ⟨f₃, n, f₄, c₃, c₄, hf₂, hn, htail, -⟩ | ⟨s, hs, -⟩
      · have hnodes : m :: f₂ = (m :: f₃) ++ n :: f₄ := by simp [hf₂]
        refine ⟨n, c₃, c₄, f₃, hn, by simp [hb, htail], fun k hk => ?_, (w₂.split hnodes).1⟩
        rw [hf, hf₂]
        simp only [List.mem_append, List.mem_cons, List.not_mem_nil, or_false] at hk ⊢
        tauto
      · simp at hs
    rcases List.append_eq_append_iff.mp hrest with ⟨t, hb, ht⟩ | ⟨t, hc, ht⟩
    · obtain ⟨n, c₃, c₄, between, hn, hb, hsub, w₃⟩ := hfar t hb ht
      exact Or.inr ⟨m, n, c₁, c₂, c₃, c₄, between, hm, hn, hb, hsub, w₃⟩
    · cases t with
      | nil =>
          obtain ⟨n, c₃, c₄, between, hn, hb, hsub, w₃⟩ :=
            hfar [] (by simpa using hc.symm) (by simpa using ht.symm)
          exact Or.inr ⟨m, n, c₁, c₂, c₃, c₄, between, hm, hn, hb, hsub, w₃⟩
      | cons y t =>
          obtain ⟨rfl, -⟩ := List.cons_eq_cons.mp ht
          exact Or.inl ⟨m, c₁, t, by simp [hf], by rw [hm, hc]⟩
  · simp at ht

/-- Whether a value can move is asked of the positions of the two places. -/
theorem Finds.isUndisturbed_eq
    (hg : g.Finds known)
    (hknown : known m)
    (hknown' : known n)
    (value : Expr)
    {c₁ c₂ c₃ c₄ : List RunStep}
    (hm : g.code m = c₁ ++ (ins, d) :: c₂)
    (hn : g.code n = c₃ ++ (ins', u) :: c₄) :
    g.isUndisturbed value d u = g.isUndisturbedBetween value m c₁.length n c₃.length := by
  have hm' : (ins, d) ∈ g.code m := by simp [hm]
  have hn' : (ins', u) ∈ g.code n := by simp [hn]
  unfold isUndisturbed
  simp only [hg.nodeAt_eq m hknown d (List.of_mem_zip hm').2,
    hg.nodeAt_eq n hknown' u (List.of_mem_zip hn').2, hg.idxOf_code hknown hm,
    hg.idxOf_code hknown' hn]

theorem blocks_eq_false
    {value : Expr}
    {code : List RunStep}
    {all : List Instr}
    (hall : (!all.any (Instr.blocks value)) = true)
    (hsub : code.map Prod.fst ⊆ all) :
    ∀ x, x ∈ code → x.1.blocks value = false := by
  intro x hx
  have hany := List.any_eq_false.mp (by simpa using hall) x.1
    (hsub (List.mem_map.mpr ⟨x, hx, rfl⟩))
  simpa using hany

/-- Within one node, only the code between the two places is run. -/
theorem Finds.blocks_eq_false_of_same_node
    (hg : g.Finds known)
    (hknown : known m)
    {value : Expr}
    {c₁ c₂ : List RunStep}
    (hvalue : g.isUndisturbed value d u = true)
    (hm : g.code m = c₁ ++ (ins, d) :: (b ++ (ins', u) :: c₂)) :
    ∀ x, x ∈ b → x.1.blocks value = false := by
  have hn : g.code m = (c₁ ++ (ins, d) :: b) ++ (ins', u) :: c₂ := by simp [hm]
  have hins := hg.map_fst_code hknown
  rw [hg.isUndisturbed_eq hknown hknown value hm hn, isUndisturbedBetween,
    if_pos ⟨rfl, by simp⟩] at hvalue
  have htake : ((g.node m).ins.take (c₁ ++ (ins, d) :: b).length).drop (c₁.length + 1) =
      b.map Prod.fst := by
    have hsplit : (c₁ ++ (ins, d) :: b).map Prod.fst =
        (c₁.map Prod.fst ++ [ins]) ++ b.map Prod.fst := by simp
    rw [← hins, hn, List.map_append, List.take_left' (by simp), hsplit, List.drop_left' (by simp)]
  rw [htake] at hvalue
  exact blocks_eq_false hvalue (List.Subset.refl _)

/-- If a value can move from a definition to a use, then no step between the two blocks it, on no
run that does not come back to the definition in between; and a value that has an effect or reads
the heap is not used in between. -/
theorem Finds.undisturbed_sound
    (hg : g.Finds known)
    {value : Expr}
    (hvalue : g.isUndisturbed value d u = true)
    (hstart : ∀ l, l ∈ (g.node start).locs → known start)
    (w : g.toDigraph.Walk start stop nodes)
    (htrace : g.trace nodes = a ++ (ins, d) :: b ++ (ins', u) :: after)
    (hd : ∀ x, x ∈ b → x.2 ≠ d) :
    (∀ x, x ∈ b → x.1.blocks value = false) ∧
      ((value.hasEffect || value.readsHeap) = true → ∀ x, x ∈ b → x.2 ≠ u) := by
  rcases between_of_walk w htrace with
    ⟨m, c₁, c₂, hmem, hm⟩ | ⟨m, n, c₁, c₂, c₃, c₄, between, hm, hn, hb, hsub, w'⟩
  · have hknown := hg.known_of_code hstart w hmem (x := (ins, d)) (by simp [hm])
    have hn : g.code m = (c₁ ++ (ins, d) :: b) ++ (ins', u) :: c₂ := by simp [hm]
    exact ⟨hg.blocks_eq_false_of_same_node hknown hvalue hm,
      fun _ x hx => hg.place_ne hknown hn (Or.inl (by simp [hx]))⟩
  · have hwf := hg.wellFormed
    have hmem : (ins, d) ∈ g.code m := by simp [hm]
    have hmem' : (ins', u) ∈ g.code n := by simp [hn]
    have hknown := hg.known_of_code hstart w (hsub (by simp)) hmem
    have hknown' := hg.known_of_code hstart w (hsub (by simp)) hmem'
    have hsource : m ∉ between := by
      intro hbetween
      have hcode : (ins, d) ∈ g.trace between := List.mem_flatMap.mpr ⟨m, hbetween, hmem⟩
      exact hd (ins, d) (by simp [hb, hcode]) rfl
    have hfar : ¬ (m = n ∧ c₁.length < c₃.length) := by
      rintro ⟨rfl, hlt⟩
      have heq : c₁ ++ (ins, d) :: c₂ = c₃ ++ (ins', u) :: c₄ := hm.symm.trans hn
      rcases List.append_eq_append_iff.mp heq with ⟨t, hc, ht⟩ | ⟨t, hc, -⟩
      · cases t with
        | nil => simp [hc] at hlt
        | cons y t =>
            obtain ⟨rfl, -⟩ := List.cons_eq_cons.mp ht
            exact hd (ins, d) (by simp [hb, hc]) rfl
      · have hlen := congrArg List.length hc
        simp only [List.length_append] at hlen
        omega
    rw [hg.isUndisturbed_eq hknown hknown' value hm hn, isUndisturbedBetween, if_neg hfar] at hvalue
    simp only [Bool.and_eq_true] at hvalue
    obtain ⟨⟨⟨hleave, hreenters⟩, hinner⟩, harrive⟩ := hvalue
    have hinsm := hg.map_fst_code hknown
    have hinsn := hg.map_fst_code hknown'
    have hc₂ : ∀ x, x ∈ c₂ → x.1.blocks value = false := by
      refine blocks_eq_false hleave ?_
      have hsplit : (c₁ ++ (ins, d) :: c₂).map Prod.fst =
          (c₁.map Prod.fst ++ [ins]) ++ c₂.map Prod.fst := by simp
      rw [← hinsm, hm, hsplit, List.drop_left' (by simp)]
      exact List.Subset.refl _
    have hc₃ : ∀ x, x ∈ c₃ → x.1.blocks value = false := by
      refine blocks_eq_false harrive ?_
      split
      · rw [← hinsn, hn, List.map_append]
        exact List.subset_append_left _ _
      · rw [← hinsn, hn, List.map_append, List.take_left' (by simp)]
        exact List.Subset.refl _
    have hcode : ∀ k, k ∈ between → ∀ x, x ∈ g.code k → x.1.blocks value = false := by
      intro k hk x hx
      have hinsk := g.map_fst_code_subset k
      by_cases hkn : k = n
      · subst hkn
        have hback := reenters_of_mem hwf w' hsource hk
        rw [hback, if_pos rfl] at harrive
        exact blocks_eq_false harrive hinsk x hx
      · have hfound := mem_innerNodes_of_mem hwf w' hsource hk hkn
        have hnone : (!(g.node k).ins.any (Instr.blocks value)) = true := by
          simp only [Bool.not_eq_true', List.any_eq_false, Bool.not_eq_true] at hinner ⊢
          exact hinner k hfound
        exact blocks_eq_false hnone hinsk x hx
    refine ⟨?_, fun heffect => ?_⟩
    · intro x hx
      rw [hb, List.mem_append, List.mem_append] at hx
      rcases hx with (hx | hx) | hx
      · exact hc₂ x hx
      · obtain ⟨k, hk, hx⟩ := List.mem_flatMap.mp hx
        exact hcode k hk x hx
      · exact hc₃ x hx
    · intro x hx hu
      rw [hb, List.mem_append, List.mem_append] at hx
      have hsame : ∀ k, k ∈ nodes → x ∈ g.code k → k = n := fun k hk hx => by
        obtain ⟨i, l⟩ := x
        obtain rfl : l = u := hu
        exact hg.same_node (hg.known_of_code hstart w hk hx) hknown' hx hmem'
      rcases hx with (hx | hx) | hx
      · -- The use stands behind the definition in the same node, which is the other case.
        obtain rfl : m = n := hsame m (hsub (by simp)) (by simp [hm, hx])
        obtain ⟨front, behind, rfl⟩ := List.append_of_mem hx
        obtain ⟨i, l⟩ := x
        obtain rfl : l = u := hu
        have hm' : g.code m = (c₁ ++ (ins, d) :: front) ++ (i, l) :: behind := by simp [hm]
        obtain ⟨-, hlen, -⟩ := hg.split_unique hknown hknown' hm' hn
        exact hfar ⟨rfl, by rw [← hlen]; simp⟩
      · obtain ⟨k, hk, hx⟩ := List.mem_flatMap.mp hx
        obtain rfl := hsame k (hsub (by simp [hk])) hx
        have hback := reenters_of_mem hwf w' hsource hk
        simp [hback, heffect] at hreenters
      · exact hg.place_ne hknown' hn (Or.inl hx) hu

/-- On runs from the entry, the places of the order are found. -/
theorem isUndisturbed_sound
    (hg : g.Indexed)
    {value : Expr}
    (hvalue : g.isUndisturbed value d u = true)
    (h : g.Executes (a ++ (ins, d) :: b) (ins', u))
    (hd : ∀ x, x ∈ b → x.2 ≠ d) :
    (∀ x, x ∈ b → x.1.blocks value = false) ∧
      ((value.hasEffect || value.readsHeap) = true → ∀ x, x ∈ b → x.2 ≠ u) := by
  obtain ⟨_, _, _, w, htrace⟩ := h
  exact hg.finds.undisturbed_sound hvalue (fun l hl => hg.mem_order _ l hl) w htrace hd

end Places

section Passages

variable {d u : Loc} {between : List RunStep} {value : Expr}

/-- What a walk runs behind the instruction at a place, up to one at another place, without coming
back to the first place.  The instruction at the second place may be run on the way. -/
def Passes (g : FlowGraph) (d u : Loc) (between : List RunStep) : Prop :=
  ∃ start stop nodes before after ins ins',
    g.isLive start = true ∧ g.toDigraph.Walk start stop nodes ∧
      g.trace nodes = before ++ (ins, d) :: between ++ (ins', u) :: after ∧
        ∀ x ∈ between, x.2 ≠ d

/-- An exact index finds the places of the nodes of the graph. -/
theorem Exact.finds
    (hexact : g.Exact)
    (hwired : g.Wired) :
    g.Finds (g.isLive · = true) where
  wellFormed := hwired.wellFormed
  length_eq := hexact.located
  nodup := hexact.nodup
  nodeAt_eq n hlive l hmem := (hexact.nodeAt_iff l n).2 ⟨hlive, hmem⟩
  passed a b hmem _ _ := (hwired.live a b (List.mem_append.1 hmem)).2

/-- The index is exact if its entries are the places of the nodes. -/
theorem exact_of_entries
    (hlocated : g.Located)
    (hnodup : ∀ n ∈ g.liveIds, (g.node n).locs.Nodup)
    (hkeys_nodup : (g.locIndex.map Prod.fst).Nodup)
    (hsound : ∀ entry ∈ g.locIndex, g.isLive entry.2 = true ∧ entry.1 ∈ (g.node entry.2).locs)
    (hcomplete : ∀ n ∈ g.liveIds, ∀ l ∈ (g.node n).locs, (l, n) ∈ g.locIndex) :
    g.Exact := by
  have hnodeAt_iff (l : Loc) (n : NodeId) :
      g.nodeAt l = some n ↔ g.isLive n = true ∧ l ∈ (g.node n).locs := by
    rw [nodeAt, ← OrderedMap.mem_iff_lookup_eq_some hkeys_nodup]
    exact ⟨fun hmem => hsound _ hmem, fun held => hcomplete n (mem_liveIds_iff.2 held.1) l held.2⟩
  refine ⟨⟨hlocated, fun n hlive => hnodup n (mem_liveIds_iff.2 hlive),
    fun n m hn hm l hmem hmem' => ?_⟩,
    hkeys_nodup, hnodeAt_iff⟩
  have hfound := (hnodeAt_iff l n).2 ⟨hn, hmem⟩
  exact Option.some.inj (hfound.symm.trans ((hnodeAt_iff l m).2 ⟨hm, hmem'⟩))

/-- If a value can move from a place to another one, then it may pass all that any walk runs in
between. -/
theorem isUndisturbed_passages
    (hexact : g.Exact)
    (hwired : g.Wired)
    (hundisturbed : g.isUndisturbed value d u = true)
    (hpasses : g.Passes d u between) :
    (∀ x ∈ between, ∀ v, x.1.target? = some v → v ∉ value.varsRead) ∧
      (value.varsRead ≠ [] ∨ value.readsHeap = true ∨ value.hasEffect = true →
        ∀ x ∈ between, x.1.hasEffect = false) ∧
      (value.hasEffect = true ∨ value.readsHeap = true → ∀ x ∈ between, x.2 ≠ u) := by
  obtain ⟨start, stop, nodes, before, after, ins, ins', hlive, hwalk, hruns, hleaves⟩ := hpasses
  obtain ⟨hunblocked, honce⟩ := (hexact.finds hwired).undisturbed_sound hundisturbed
    (fun _ _ => hlive) hwalk hruns hleaves
  refine ⟨fun x hmem => (Instr.blocks_eq_false_iff.1 (hunblocked x hmem)).1,
    fun hmoves x hmem => (Instr.blocks_eq_false_iff.1 (hunblocked x hmem)).2 hmoves,
      fun hevaluates => ?_⟩
  exact honce (Bool.or_eq_true_iff.2 hevaluates)

/-- A field is read, then a loop without effects is run, and then the value is returned. -/
def fieldPastLoop : FlowGraph :=
  { FlowGraph.empty with
    slots := #[
      placedSlot .statement
        [(.assign (some 0) (.fieldRead (.var 1) ⟨"LT;", "f", "I"⟩), 0)] [1] [],
      placedSlot (.conditional ⟨1, 2⟩) [(.ifCompareZero .eq (.var 1), 1)] [1, 2] [0, 1],
      placedSlot .ret [(.ret (some (.var 0)), 2)] [] [1]]
    locIndex := [(0, 0), (1, 1), (2, 2)] }

theorem isUndisturbed_passages_fieldPastLoop :
    let field : Expr := .fieldRead (.var 1) ⟨"LT;", "f", "I"⟩
    let turns : List RunStep := [(.ifCompareZero .eq (.var 1), 1), (.ifCompareZero .eq (.var 1), 1)]
    fieldPastLoop.Exact ∧ fieldPastLoop.Wired ∧ fieldPastLoop.isUndisturbed field 0 2 = true ∧
      fieldPastLoop.Passes 0 2 turns ∧
        ∀ x ∈ turns, x.1.hasEffect = false ∧ x.2 ≠ 2 := by
  intro field turns
  have hexact : fieldPastLoop.Exact :=
    exact_of_entries (by decide) (by decide) (by decide) (by decide) (by decide)
  have hwired : fieldPastLoop.Wired := wired_iff.2 (by decide)
  have hundisturbed : fieldPastLoop.isUndisturbed field 0 2 = true := by cbv
  have henters : fieldPastLoop.toDigraph.Walk 0 1 [0, 1] := .step .here (by decide)
  have hturns_back : fieldPastLoop.toDigraph.Walk 0 1 [0, 1, 1] := .step henters (by decide)
  have hpasses : fieldPastLoop.Passes 0 2 turns :=
    ⟨0, 2, [0, 1, 1, 2], [], [], _, _, rfl, .step hturns_back (by decide), rfl, by decide⟩
  obtain ⟨-, hquiet, honce⟩ := isUndisturbed_passages hexact hwired hundisturbed hpasses
  exact ⟨hexact, hwired, hundisturbed, hpasses, fun x hmem =>
    ⟨hquiet (.inl (by decide)) x hmem, honce (.inr rfl) x hmem⟩⟩

end Passages

end FlowGraph
end DalvikDecompiler
