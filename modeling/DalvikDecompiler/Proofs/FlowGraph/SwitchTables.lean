import DalvikDecompiler.FlowGraph.Node
import DalvikDecompiler.Proofs.OrderedSet

/-!
# An ordered switch table sends every selector to the target of the payload

**Input.** A table as it is made from a payload: the targets are those of the
keys by position, behind the fall-through.

**Results.** Ordering turns positions into arms, one for each target, and no
selector goes elsewhere.  Each key is in one arm, and the keys of an arm keep
their order.  Redirecting the targets first, even several to one node,
redirects what the arms say and nothing else.

Main statement: `order_dispatches`.
-/

namespace DalvikDecompiler

namespace OrderedSet

variable {α : Type} [BEq α] [LawfulBEq α]

omit [LawfulBEq α] in
theorem ofList_concat
    (xs : List α)
    (x : α) :
    ofList (xs ++ [x]) = insert (ofList xs) x := by
  simp [ofList, insertAll]

/-- Elements are in the order of their first occurrences. -/
theorem pairwise_idxOf_ofList
    (xs : List α) :
    (ofList xs).Pairwise fun x y => xs.idxOf x < xs.idxOf y := by
  induction xs using List.reverseRecOn with
  | nil => exact .nil
  | append_singleton xs x ih =>
      have hkeeps : (ofList xs).Pairwise fun y z => (xs ++ [x]).idxOf y < (xs ++ [x]).idxOf z :=
        ih.imp_of_mem fun hy hz hlt => by
          rwa [List.idxOf_append_of_mem (mem_ofList.1 hy),
            List.idxOf_append_of_mem (mem_ofList.1 hz)]
      rw [ofList_concat]
      by_cases hknown : x ∈ ofList xs
      · rwa [insert_of_mem hknown]
      · rw [insert_of_not_mem hknown, List.pairwise_append]
        refine ⟨hkeeps, List.pairwise_singleton _ _, fun y hy z hz => ?_⟩
        obtain rfl := List.mem_singleton.1 hz
        have hbefore : (xs ++ [z]).idxOf y < xs.length := by
          rw [List.idxOf_append_of_mem (mem_ofList.1 hy)]
          exact List.idxOf_lt_length_of_mem (mem_ofList.1 hy)
        have hlast : (xs ++ [z]).idxOf z = xs.length := by
          rw [List.idxOf_append_of_notMem fun hmem => hknown (mem_ofList.2 hmem)]
          simp
        rwa [hlast]

end OrderedSet

namespace SwitchTable

/-- The keys of a payload with their targets. -/
def payload (s : SwitchTable) : List (Int32 × NodeId) :=
  s.keys.zip s.cases.tail

/-- The target that the payload gives a selector: the one at the position of its key, or else the
fall-through. -/
def assigned? (s : SwitchTable) (selector : Int32) : Option NodeId :=
  match s.keys.idxOf? selector with
  | some i => s.cases[i + 1]?
  | none => s.cases.head?

/-- The target that the arms give a selector, or else the default target. -/
def target? (s : SwitchTable) (selector : Int32) : Option NodeId :=
  ((s.arms.find? fun arm => arm.2.contains selector).map Prod.fst).or s.fallback

/-- The keys that go to a node, in the order in which they came. -/
def keysTo (entries : List (Int32 × NodeId)) (node : NodeId) : List Int32 :=
  (entries.filter fun entry => entry.2 == node).map Prod.fst

theorem mem_keysTo
    {entries : List (Int32 × NodeId)}
    {node : NodeId}
    {key : Int32} :
    key ∈ keysTo entries node ↔ (key, node) ∈ entries := by
  simp [keysTo]

/-- How an ordered table belongs to the payload. -/
structure Orders (raw ordered : SwitchTable) : Prop where
  dispatch : ∀ selector, ordered.target? selector = raw.assigned? selector
  keys_perm : (ordered.arms.flatMap Prod.snd).Perm raw.keys
  arms_eq : ordered.arms = ordered.cases.map fun node => (node, keysTo raw.payload node)
  nodup_cases : ordered.cases.Nodup
  mem_cases : ∀ node, node ∈ ordered.cases ↔ node ∈ raw.cases.tail
  cases_order : ordered.cases.Pairwise fun node other =>
    raw.cases.tail.idxOf node < raw.cases.tail.idxOf other

section Arms

variable {arms : List (NodeId × List Int32)} {entries : List (Int32 × NodeId)}

/-- Adding a key leaves the arms in front of that of its target alone. -/
theorem addKey_cons
    (arm : NodeId × List Int32)
    (arms : List (NodeId × List Int32))
    (entry : Int32 × NodeId) :
    addKey (arm :: arms) entry =
      if arm.1 = entry.2 then (arm.1, arm.2 ++ [entry.1]) :: arms else arm ::
        addKey arms entry := by
  obtain ⟨node, keys⟩ := arm
  obtain ⟨key, target⟩ := entry
  by_cases hsame : node = target
  · subst hsame
    simp [addKey, OrderedMap.insert]
  · have hdiffers : (target == node) = false := by simp [Ne.symm hsame]
    simp [addKey, OrderedMap.insert, List.lookup, hsame, hdiffers]

theorem map_fst_foldl_addKey
    (entries : List (Int32 × NodeId))
    (arms : List (NodeId × List Int32)) :
    (entries.foldl addKey arms).map Prod.fst =
      OrderedSet.insertAll (arms.map Prod.fst) (entries.map Prod.snd) := by
  induction entries generalizing arms with
  | nil => rfl
  | cons entry entries ih =>
      rw [List.foldl_cons, ih, addKey, OrderedMap.keys_insert]
      rfl

/-- The arm of a node gets the keys that go there, behind those it has. -/
theorem lookup_foldl_addKey
    (entries : List (Int32 × NodeId))
    (arms : List (NodeId × List Int32))
    (node : NodeId) :
    ((entries.foldl addKey arms).lookup node).getD [] =
      (arms.lookup node).getD [] ++ keysTo entries node := by
  induction entries generalizing arms with
  | nil => simp [keysTo]
  | cons entry entries ih =>
      obtain ⟨key, target⟩ := entry
      rw [List.foldl_cons, ih]
      by_cases hsame : node = target
      · subst hsame
        simp [addKey, keysTo]
      · simp [addKey, keysTo, hsame, Ne.symm hsame]

theorem flatMap_addKey_perm
    (arms : List (NodeId × List Int32))
    (entry : Int32 × NodeId) :
    ((addKey arms entry).flatMap Prod.snd).Perm (arms.flatMap Prod.snd ++ [entry.1]) := by
  induction arms with
  | nil => exact .refl _
  | cons arm arms ih =>
      rw [addKey_cons]
      split
      · simp only [List.flatMap_cons, List.append_assoc]
        exact List.perm_append_comm.append_left _
      · simp only [List.flatMap_cons, List.append_assoc]
        exact ih.append_left _

theorem flatMap_foldl_addKey_perm
    (entries : List (Int32 × NodeId))
    (arms : List (NodeId × List Int32)) :
    ((entries.foldl addKey arms).flatMap Prod.snd).Perm
      (arms.flatMap Prod.snd ++ entries.map Prod.fst) := by
  induction entries generalizing arms with
  | nil => simp
  | cons entry entries ih =>
      have hfirst := (flatMap_addKey_perm arms entry).append_right (entries.map Prod.fst)
      rw [List.append_assoc] at hfirst
      exact (ih (addKey arms entry)).trans hfirst

/-- The arms made from a payload are its targets, each with its keys. -/
theorem foldl_addKey_eq
    (entries : List (Int32 × NodeId)) :
    entries.foldl addKey [] =
      (OrderedSet.ofList (entries.map Prod.snd)).map fun node => (node, keysTo entries node) := by
  have hnodes := map_fst_foldl_addKey entries []
  have hnodup : ((entries.foldl addKey []).map Prod.fst).Nodup :=
    hnodes ▸ OrderedSet.nodup_ofList _
  have heach : ∀ arm ∈ entries.foldl addKey [], (arm.1, keysTo entries arm.1) = arm := by
    rintro ⟨node, keys⟩ hmem
    have hfound := (OrderedMap.mem_iff_lookup_eq_some hnodup).1 hmem
    have hkeys_eq := lookup_foldl_addKey entries [] node
    simp only [hfound, Option.getD_some, List.lookup_nil, Option.getD_none, List.nil_append]
      at hkeys_eq
    rw [hkeys_eq]
  calc entries.foldl addKey []
      = (entries.foldl addKey []).map fun arm => (arm.1, keysTo entries arm.1) := by
        rw [List.map_congr_left heach, List.map_id']
    _ = ((entries.foldl addKey []).map Prod.fst).map fun node => (node, keysTo entries node) := by
        rw [List.map_map]; rfl
    _ = _ := by rw [hnodes]; rfl

end Arms

/-- Among entries with different keys, the arm that has a key is that of its target. -/
theorem find?_foldl_addKey
    {entries : List (Int32 × NodeId)}
    (hkeys : (entries.map Prod.fst).Nodup)
    (selector : Int32) :
    ((entries.foldl addKey []).find? fun arm => arm.2.contains selector).map Prod.fst =
      entries.lookup selector := by
  rw [foldl_addKey_eq]
  cases hfound : ((OrderedSet.ofList (entries.map Prod.snd)).map
      fun node => (node, keysTo entries node)).find? fun arm => arm.2.contains selector with
  | some arm =>
      obtain ⟨node, -, rfl⟩ := List.mem_map.1 (List.mem_of_find?_eq_some hfound)
      have has := List.find?_some hfound
      have hmem : (selector, node) ∈ entries := mem_keysTo.1 (List.contains_iff_mem.1 has)
      exact ((OrderedMap.mem_iff_lookup_eq_some hkeys).1 hmem).symm
  | none =>
      cases hassigned : entries.lookup selector with
      | none => rfl
      | some node =>
          have hmem := (OrderedMap.mem_iff_lookup_eq_some hkeys).2 hassigned
          refine absurd (List.contains_iff_mem.2 (mem_keysTo.2 hmem)) ?_
          exact List.find?_eq_none.1 hfound _ (List.mem_map.2
            ⟨node, OrderedSet.mem_ofList.2 (List.mem_map.2 ⟨_, hmem, rfl⟩), rfl⟩)

section Payload

variable {s : SwitchTable}

/-- A table of a payload has a fall-through, and then a target for each key. -/
theorem exists_cases_eq_cons
    (hlen : s.cases.length = s.keys.length + 1) :
    ∃ onward targets, s.cases = onward :: targets ∧
      s.keys.length = targets.length := by
  cases hcases : s.cases with
  | nil => simp [hcases] at hlen
  | cons onward targets =>
      exact ⟨onward, targets, rfl, by simpa [hcases, eq_comm] using hlen⟩

theorem lookup_zip_eq
    (keys : List Int32)
    (targets : List NodeId)
    (selector : Int32) :
    (keys.zip targets).lookup selector = (keys.idxOf? selector).bind fun i => targets[i]? := by
  induction keys generalizing targets with
  | nil => rfl
  | cons key keys ih =>
      cases targets with
      | nil => simp
      | cons target targets =>
          by_cases hsame : selector = key
          · subst hsame
            simp [List.idxOf?_cons]
          · have hdiffers : (selector == key) = false := by simp [hsame]
            simp [List.lookup, hdiffers, List.idxOf?_cons, Ne.symm hsame, ih, Option.bind_map]

theorem assigned?_eq
    (hlen' : s.cases.length = s.keys.length + 1)
    (selector : Int32) :
    s.assigned? selector = (s.payload.lookup selector).or s.cases.head? := by
  obtain ⟨onward, targets, hcases, hlen⟩ := exists_cases_eq_cons hlen'
  rw [payload, lookup_zip_eq, assigned?, hcases]
  cases hfound : s.keys.idxOf? selector with
  | none => rfl
  | some i =>
      have hlt : i < targets.length := by
        rw [← hlen]
        exact (List.findIdx?_eq_some_iff_getElem.1 hfound).1
      simp [hlt]

/-- Ordering keeps what the payload says. -/
theorem orders_order
    (hkeys : s.keys.Nodup)
    (hlen' : s.cases.length = s.keys.length + 1) :
    Orders s s.order := by
  obtain ⟨onward, targets, hcases, hlen⟩ := exists_cases_eq_cons hlen'
  have hordered : s.order =
      { keys := s.keys
        cases := OrderedSet.ofList targets
        fallback := some onward
        arms := (s.keys.zip targets).foldl addKey [] } := by
    simp [order, hcases, hlen]
  have hpayload_eq : s.payload = s.keys.zip targets := by rw [payload, hcases, List.tail_cons]
  have hfirsts : (s.keys.zip targets).map Prod.fst = s.keys := List.map_fst_zip hlen.le
  have hseconds : (s.keys.zip targets).map Prod.snd = targets := List.map_snd_zip hlen.ge
  constructor
  case dispatch =>
    intro selector
    rw [assigned?_eq hlen', hpayload_eq, target?, hordered,
      find?_foldl_addKey (hfirsts.symm ▸ hkeys), hcases, List.head?_cons]
  case keys_perm =>
    rw [hordered]
    simpa [hfirsts] using flatMap_foldl_addKey_perm (s.keys.zip targets) []
  case arms_eq => rw [hordered, foldl_addKey_eq, hseconds, hpayload_eq]
  case nodup_cases => exact hordered ▸ OrderedSet.nodup_ofList targets
  case mem_cases =>
    intro node
    rw [hordered, hcases, List.tail_cons, OrderedSet.mem_ofList]
  case cases_order =>
    rw [hordered, hcases, List.tail_cons]
    exact OrderedSet.pairwise_idxOf_ofList targets

end Payload

theorem assigned?_remap
    (f : NodeId → NodeId)
    (s : SwitchTable)
    (selector : Int32) :
    (s.remap f).assigned? selector = (s.assigned? selector).map f := by
  unfold assigned? remap
  cases s.keys.idxOf? selector <;> simp

/-- A table made from a payload whose keys differ is ordered without a change to what it does, and
so it is after its targets were redirected in any way. -/
theorem order_dispatches
    (s : SwitchTable)
    (hkeys : s.keys.Nodup)
    (hlen : s.cases.length = s.keys.length + 1) :
    Orders s s.order ∧
      ∀ f, Orders (s.remap f) (s.remap f).order ∧
        ∀ selector, (s.remap f).order.target? selector = (s.assigned? selector).map f := by
  refine ⟨orders_order hkeys hlen, fun f => ?_⟩
  have hredirected : Orders (s.remap f) (s.remap f).order :=
    orders_order hkeys (by simpa [remap] using hlen)
  exact ⟨hredirected, fun selector => by rw [hredirected.dispatch, assigned?_remap]⟩

theorem order_dispatches_shared :
    let s := unordered [1, 2, 3] [9, 4, 5, 4]
    Orders s s.order ∧
      ∀ f, Orders (s.remap f) (s.remap f).order ∧
        ∀ selector, (s.remap f).order.target? selector = (s.assigned? selector).map f :=
  order_dispatches (unordered [1, 2, 3] [9, 4, 5, 4]) (by decide) rfl

example :
    (unordered [1, 2, 3] [9, 4, 5, 4]).order.arms = [(4, [1, 3]), (5, [2])] ∧
      ((unordered [1, 2, 3] [9, 4, 5, 4]).remap fun _ => 7).order.arms = [(7, [1, 2, 3])] := by
  decide

end SwitchTable
end DalvikDecompiler
