import DalvikDecompiler.Proofs.Digraph.Reachability

/-!
# The depth-first forest

**Input.** The successors of nodes, the nodes that have not been seen, and some
nodes to search from.

**Algorithm.** The recursive search: from each of the nodes in turn, unless it has
been seen meanwhile, its successors are searched before the node is left.  The
calls of the search form a forest.

What a stack of nodes to enter stands for is a search from them, so that the
traversal with a stack leaves the nodes in the order of the forest.

**Results.**
* `leaveOrder_map_enter`: nodes to enter at the front of a stack are searched before
  the rest of the stack.
* `before_or_above_of_mem_succs`: an edge of a searched node leads to a node that
  is left earlier, or up in the forest.
* `postorder_searches`: the postorder is the one of the recursive search.
-/

namespace DalvikDecompiler
namespace Digraph

/-- Trees side by side. -/
inductive Forest where
  | nil
  /-- A root, the trees below it, and the trees beside it. -/
  | tree (root : NodeId) (below beside : Forest)
  deriving DecidableEq, Repr

namespace Forest

/-- The nodes of a forest, each behind the nodes below it. -/
def postorder : Forest → List NodeId
  | .nil => []
  | .tree root below beside => below.postorder ++ root :: beside.postorder

/-- Whether a node is a proper ancestor of another one. -/
def IsAbove (a b : NodeId) : Forest → Prop
  | .nil => False
  | .tree root below beside =>
      (a = root ∧ b ∈ below.postorder) ∨ below.IsAbove a b ∨ beside.IsAbove a b

theorem IsAbove.mem
    {f : Forest}
    {a b : NodeId}
    (h : f.IsAbove a b) :
    a ∈ f.postorder := by
  induction f with
  | nil => exact h.elim
  | tree root below beside ihBelow ihBeside =>
      rcases h with ⟨rfl, -⟩ | h | h
      · simp [postorder]
      · simp [postorder, ihBelow h]
      · simp [postorder, ihBeside h]

end Forest

theorem length_erase_lt
    {unseen : List NodeId}
    {n : NodeId}
    (h : n ∈ unseen) :
    (unseen.erase n).length < unseen.length := by
  rw [List.length_erase_of_mem h]
  exact Nat.sub_lt (List.length_pos_of_mem h) Nat.one_pos

/-- What a search has done: the forest of its calls, and the nodes that are still unseen. -/
structure Exploration (unseen : List NodeId) where
  forest : Forest
  remaining : List NodeId
  length_le : remaining.length ≤ unseen.length

/-- The recursive search from some nodes, one after another. -/
def explore (succs : NodeId → List NodeId) (unseen : List NodeId) :
    List NodeId → Exploration unseen
  | [] => ⟨.nil, unseen, Nat.le_refl _⟩
  | n :: rest =>
      if h : n ∈ unseen then
        let inner := explore succs (unseen.erase n) (succs n)
        have hlt : inner.remaining.length < unseen.length :=
          Nat.lt_of_le_of_lt inner.length_le (length_erase_lt h)
        let outer := explore succs inner.remaining rest
        ⟨.tree n inner.forest outer.forest, outer.remaining,
          Nat.le_trans outer.length_le (Nat.le_of_lt hlt)⟩
      else
        explore succs unseen rest
termination_by nodes => (unseen.length, nodes.length)
decreasing_by
  · exact Prod.Lex.left _ _ (length_erase_lt h)
  · exact Prod.Lex.left _ _ hlt
  · exact Prod.Lex.right _ (Nat.lt_succ_self _)

section Search

variable (succs : NodeId → List NodeId)

/-- Nodes to enter at the front of a stack are searched before the rest of the stack. -/
theorem leaveOrder_map_enter
    (unseen nodes : List NodeId)
    (stack : List Visit) :
    leaveOrder succs unseen (nodes.map .enter ++ stack) =
      (explore succs unseen nodes).forest.postorder ++
        leaveOrder succs (explore succs unseen nodes).remaining stack := by
  fun_induction explore succs unseen nodes generalizing stack with
  | case1 => rfl
  | case2 unseen n rest h inner hlt outer ihInner ihOuter =>
      have hstack : (n :: rest).map Visit.enter ++ stack = .enter n :: (rest.map .enter ++ stack) :=
        rfl
      rw [hstack, leaveOrder, if_pos h, ihInner, leaveOrder, ihOuter, Forest.postorder,
        List.append_assoc, List.cons_append]
  | case3 unseen n rest h ih =>
      have hstack : (n :: rest).map Visit.enter ++ stack = .enter n :: (rest.map .enter ++ stack) :=
        rfl
      rw [hstack, leaveOrder, if_neg h, ih]

/-- What has been seen and what has not make up the nodes that were unseen. -/
theorem explore_perm
    (unseen nodes : List NodeId) :
    ((explore succs unseen nodes).forest.postorder ++
      (explore succs unseen nodes).remaining).Perm unseen := by
  fun_induction explore succs unseen nodes with
  | case1 => exact .refl _
  | case2 unseen n rest h inner hlt outer ihInner ihOuter =>
      have hrest : (inner.forest.postorder ++ (outer.forest.postorder ++ outer.remaining)).Perm
          (unseen.erase n) :=
        (ihOuter.append_left _).trans ihInner
      have hroot : (inner.forest.postorder ++
          n :: (outer.forest.postorder ++ outer.remaining)).Perm (n :: unseen.erase n) :=
        List.perm_middle.trans (hrest.cons n)
      simpa [Forest.postorder] using hroot.trans (List.perm_cons_erase h).symm
  | case3 unseen n rest h ih => exact ih

variable {succs} {unseen nodes : List NodeId} {u v : NodeId}

theorem mem_unseen_iff :
    v ∈ unseen ↔ v ∈ (explore succs unseen nodes).forest.postorder ∨
      v ∈ (explore succs unseen nodes).remaining := by
  rw [← List.mem_append, (explore_perm succs unseen nodes).mem_iff]

/-- Every unseen node that is to be searched from is seen. -/
theorem mem_explore
    (hunseen : v ∈ unseen)
    (hmem : v ∈ nodes) :
    v ∈ (explore succs unseen nodes).forest.postorder := by
  fun_induction explore succs unseen nodes with
  | case1 => cases hmem
  | case2 unseen n rest h inner hlt outer ihInner ihOuter =>
      by_cases hvn : v = n
      · simp [Forest.postorder, hvn]
      · have hrest : v ∈ rest := List.mem_of_ne_of_mem hvn hmem
        rcases mem_unseen_iff.mp ((List.mem_erase_of_ne hvn).mpr hunseen) with hinner | hinner
        · exact List.mem_append_left _ hinner
        · exact List.mem_append_right _ (List.mem_cons_of_mem _ (ihOuter hinner hrest))
  | case3 unseen n rest h ih =>
      refine ih hunseen (List.mem_of_ne_of_mem ?_ hmem)
      rintro rfl
      exact h hunseen

/-- What holds of the nodes that are searched from and is handed on to unseen successors holds of
all nodes that are seen. -/
theorem explore_forall
    {P : NodeId → Prop}
    (hstep : ∀ a b, P a → b ∈ succs a → b ∈ unseen → P b)
    (hnodes : ∀ n, n ∈ nodes → n ∈ unseen → P n) :
    ∀ n, n ∈ (explore succs unseen nodes).forest.postorder → P n := by
  fun_induction explore succs unseen nodes with
  | case1 => simp [Forest.postorder]
  | case2 unseen n rest h inner hlt outer ihInner ihOuter =>
      have hn : P n := hnodes n (by simp) h
      have herase : ∀ b, b ∈ unseen.erase n → b ∈ unseen := fun b => List.mem_of_mem_erase
      have hremaining : ∀ b, b ∈ inner.remaining → b ∈ unseen := fun b hb =>
        herase b (mem_unseen_iff.mpr (.inr hb))
      have hbelow := ihInner (fun a b ha hb hu => hstep a b ha hb (herase b hu))
        fun m hm hu => hstep n m hn hm (herase m hu)
      have hbeside := ihOuter (fun a b ha hb hu => hstep a b ha hb (hremaining b hu))
        fun m hm hu => hnodes m (by simp [hm]) (hremaining m hu)
      intro m hm
      simp only [Forest.postorder, List.mem_append, List.mem_cons] at hm
      rcases hm with hm | rfl | hm
      · exact hbelow m hm
      · exact hn
      · exact hbeside m hm
  | case3 unseen n rest h ih => exact ih hstep fun m hm => hnodes m (by simp [hm])

/-- Whether a node stands somewhere in front of an occurrence of another one. -/
def Before (l : List NodeId) (a b : NodeId) : Prop :=
  ∃ front behind, l = front ++ b :: behind ∧ a ∈ front

theorem Before.append
    {l : List NodeId}
    (h : Before l u v)
    (front behind : List NodeId) :
    Before (front ++ l ++ behind) u v := by
  obtain ⟨before, after, rfl, hu⟩ := h
  exact ⟨front ++ before, after ++ behind, by simp, by simp [hu]⟩

theorem before_of_mem
    {front behind : List NodeId}
    (hu : u ∈ front)
    (hv : v ∈ behind) :
    Before (front ++ behind) u v := by
  obtain ⟨between, after, rfl⟩ := List.append_of_mem hv
  exact ⟨front ++ between, after, by simp, by simp [hu]⟩

/-- An edge of a searched node leads to a node that is left earlier, or up in the forest. -/
theorem before_or_above_of_mem_succs
    (hu : u ∈ (explore succs unseen nodes).forest.postorder)
    (hsucc : v ∈ succs u)
    (hv : v ∈ unseen) :
    Before (explore succs unseen nodes).forest.postorder v u ∨ v = u ∨
      (explore succs unseen nodes).forest.IsAbove v u := by
  fun_induction explore succs unseen nodes with
  | case1 => cases hu
  | case2 unseen n rest h inner hlt outer ihInner ihOuter =>
      simp only [Forest.postorder, List.mem_append, List.mem_cons] at hu ⊢
      rcases hu with hu | rfl | hu
      · by_cases hvn : v = n
        · exact .inr (.inr (.inl ⟨hvn, hu⟩))
        · rcases ihInner hu ((List.mem_erase_of_ne hvn).mpr hv) with hbefore | heq | habove
          · exact .inl (by simpa using hbefore.append [] (n :: outer.forest.postorder))
          · exact .inr (.inl heq)
          · exact .inr (.inr (.inr (.inl habove)))
      · by_cases hvn : v = u
        · exact .inr (.inl hvn)
        · -- all successors have been searched when the node is left
          have hinner : v ∈ inner.forest.postorder :=
            mem_explore ((List.mem_erase_of_ne hvn).mpr hv) hsucc
          exact .inl (before_of_mem hinner (by simp))
      · by_cases hinner : v ∈ inner.remaining
        · rcases ihOuter hu hinner with hbefore | heq | habove
          · refine .inl ?_
            simpa using hbefore.append (inner.forest.postorder ++ [n]) []
          · exact .inr (.inl heq)
          · exact .inr (.inr (.inr (.inr habove)))
        · have hearly : v ∈ inner.forest.postorder ++ [n] := by
            by_cases hvn : v = n
            · simp [hvn]
            · have hseen : v ∈ inner.forest.postorder ∨ v ∈ inner.remaining :=
                mem_unseen_iff.mp ((List.mem_erase_of_ne hvn).mpr hv)
              exact List.mem_append_left _ (hseen.resolve_right hinner)
          have hbefore := before_of_mem hearly hu
          exact .inl (by simpa using hbefore)
  | case3 unseen n rest h ih => exact ih hu hv

end Search

section Postorder

variable (g : Digraph) (start : NodeId)

/-- The depth-first forest of a start: a tree, if the start is a slot. -/
def depthFirst : Forest :=
  (explore g.succs (List.range g.size) [start]).forest

theorem postorder_eq :
    g.postorder start = (g.depthFirst start).postorder := by
  have h := leaveOrder_map_enter g.succs (List.range g.size) [start] []
  rw [leaveOrder, List.append_nil, List.append_nil] at h
  exact h

/-- A node is left exactly if a walk within the slots leads to it. -/
theorem mem_postorder_iff_walk
    (n : NodeId) :
    n ∈ g.postorder start ↔ ∃ nodes, g.Walk start n nodes ∧ ∀ m, m ∈ nodes → m < g.size := by
  rw [postorder_eq, depthFirst]
  constructor
  · revert n
    apply explore_forall
    · rintro a b ⟨nodes, w, hsize⟩ hb hu
      refine ⟨_, w.step hb, fun m hm => ?_⟩
      rcases List.mem_append.mp hm with hm | hm
      · exact hsize m hm
      · exact List.mem_singleton.mp hm ▸ List.mem_range.mp hu
    · intro m hm hu
      obtain rfl := List.mem_singleton.mp hm
      exact ⟨[m], .here, fun k hk => List.mem_singleton.mp hk ▸ List.mem_range.mp hu⟩
  · rintro ⟨nodes, w, hsize⟩
    induction w with
    | here => exact mem_explore (List.mem_range.mpr (hsize start (by simp))) (by simp)
    | @step b c nodes w hc ih =>
        have hb := ih fun m hm => hsize m (by simp [hm])
        have hlt : c ∈ List.range g.size := List.mem_range.mpr (hsize c (by simp))
        rcases before_or_above_of_mem_succs hb hc hlt with ⟨front, behind, heq, hmem⟩ | rfl | habove
        · rw [heq]
          exact List.mem_append_left _ hmem
        · exact hb
        · exact habove.mem

/-- **The traversal with a stack is the recursive one.**  It leaves the nodes in the order of the
recursive search; these are the nodes that can be reached within the slots, each once; and in the
reverse order an edge leads forward unless it leads up in the forest or stays where it is. -/
theorem postorder_searches :
    g.postorder start = (g.depthFirst start).postorder ∧
    (g.postorder start).Nodup ∧
    (∀ n, n ∈ g.postorder start ↔
      ∃ nodes, g.Walk start n nodes ∧ ∀ m, m ∈ nodes → m < g.size) ∧
    ∀ u v, u ∈ g.reversePostorder start → v ∈ g.reversePostorder start → v ∈ g.succs u →
      (g.reversePostorder start).idxOf u < (g.reversePostorder start).idxOf v ∨ v = u ∨
        (g.depthFirst start).IsAbove v u := by
  refine ⟨postorder_eq g start, postorder_nodup g start, mem_postorder_iff_walk g start, ?_⟩
  intro u v hu hv hsucc
  have hnodup : (g.reversePostorder start).Nodup := List.nodup_reverse.mpr (postorder_nodup g start)
  have hmem : ∀ {n}, n ∈ g.reversePostorder start → n ∈ (g.depthFirst start).postorder := by
    intro n hn
    rw [← postorder_eq]
    exact List.mem_reverse.mp hn
  have hunseen : v ∈ List.range g.size := mem_unseen_iff.mpr (.inl (hmem hv))
  refine (before_or_above_of_mem_succs (hmem hu) hsucc hunseen).imp_left ?_
  rintro ⟨front, behind, heq, hfront⟩
  have horder : g.reversePostorder start = behind.reverse ++ u :: front.reverse := by
    rw [reversePostorder, postorder_eq, depthFirst, heq]
    simp
  rw [horder] at hnodup ⊢
  exact idxOf_lt_of_nodup hnodup (by simpa using hfront)

end Postorder

end Digraph
end DalvikDecompiler
