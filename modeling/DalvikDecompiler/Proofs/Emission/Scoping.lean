import DalvikDecompiler.Proofs.Emission.Homes

/-!
# Variables in scope

What is written between two states declares variables and uses them.  A use lies in a scope if what
is needed from the node on, that is, on some way to a mention, has been put in scope in front of it.
The exception are nodes that leave the method.  These are written again where they are met again,
and the second time without the declarations.

**Results.**
* `Scopes`: what some code does with variables; `Scopes.append` puts such codes together.
* `Supplied.along`: what is in scope at a node is enough for the nodes that it goes on to.
* `scoped_instructions`, `declared_declareVars`: instructions and declarations put in scope what
  they declare.
* `tests_conditionOf`, `tests_latchCondition`: conditions use what is in scope.
-/

namespace DalvikDecompiler
namespace Emission

open Symbolic (VarId Variables Instr)
open Java (Block Expression Statement Mark SwitchArm CatchClause blockMarks elseMarks armMarks
  clauseMarks blockStrays elseStrays armStrays clauseStrays boundNames outside outside_eq_nil
  blockStrays_append blockDeclared elseDeclared)

/-- The names of the arguments, and what calls of the superclass are written on. -/
def argumentNames (vars : Variables) : List String :=
  "super" :: (vars.ids.filter vars.isParam).map vars.name

theorem mem_argumentNames
    {vars : Variables}
    {v : VarId}
    (h : vars.isParam v = true) :
    vars.name v ∈ argumentNames vars := by
  refine List.mem_cons_of_mem _ (List.mem_map_of_mem (List.mem_filter.2 ⟨?_, h⟩))
  rw [Variables.ids, List.mem_range]
  by_contra houtside
  have habsent : vars.get? v = none := by
    simpa [Variables.get?, Variables.size] using houtside
  simp [Variables.isParam, habsent] at h

/-- The name of what a declaration declares: a handler may bind the exception to nothing. -/
def boundName (vars : Variables) : Option VarId → String
  | some v => vars.name v
  | none => "_"

/-- The code of a node is part of the text. -/
def Copied (src : Source) (marks : List Mark) (id : NodeId) : Prop :=
  ∃ before code behind, WrittenFor src id code ∧ marks = before ++ (blockMarks code ++ behind)

/-- The code of a node stands in the text twice. -/
def Twice (src : Source) (marks : List Mark) (id : NodeId) : Prop :=
  ∃ first second, Copied src first id ∧ Copied src second id ∧ marks = first ++ second

theorem Copied.append
    {src : Source}
    {marks : List Mark}
    {id : NodeId}
    (h : Copied src marks id)
    (marks' marks'' : List Mark) :
    Copied src (marks' ++ marks ++ marks'') id := by
  obtain ⟨before, code, behind, hwrote, rfl⟩ := h
  exact ⟨marks' ++ before, code, behind ++ marks'', hwrote, by simp⟩

theorem Twice.append
    {src : Source}
    {marks : List Mark}
    {id : NodeId}
    (h : Twice src marks id)
    (marks' marks'' : List Mark) :
    Twice src (marks' ++ marks ++ marks'') id := by
  obtain ⟨first, second, hone, htwo, rfl⟩ := h
  refine ⟨marks' ++ first, second ++ marks'', ?_, ?_, by simp⟩
  · simpa using hone.append marks' []
  · simpa using htwo.append [] marks''

/-- The variables of a state are those of the method; what has been declared was so at a home that
has been visited, and the handlers that have been visited belong to regions that have been so. -/
structure Synced (g : FlowGraph) (vars : Variables) (home : VarId → NodeId) (s : Progress) :
    Prop where
  same : SameVars vars s.vars
  visited : ∀ v, vars.isParam v = false → s.vars.isDeclared v = true → home v ∈ s.visited
  regions : ∀ region handler v, Catches g region handler → g.Binds handler v →
    handler ∈ s.visited → region ∈ s.visited

/-- A variable has been declared, and its name is in scope. -/
structure Held (vars : Variables) (names : List String) (s : Progress) (v : VarId) : Prop where
  inScope : vars.name v ∈ names
  declared : s.vars.isDeclared v = true

/-- A node that leaves the method, whose code stands in the text twice, or once more than before. -/
structure Repeated (src : Source) (s : Progress) (marks : List Mark) (id : NodeId) : Prop where
  leaves : (src.node id).kind.isExit = true
  again : id ∈ s.visited ∧ Copied src marks id ∨ Twice src marks id

/-- What some code, which is written between two states, does with variables: it declares each of
them at most once; a node that leaves the method is written where it is visited; the handlers that
are visited belong to regions that were not visited, or to the node whose code this is; what is used
out of scope belongs to a node that leaves the method and that has been written before. -/
structure Scopes (src : Source) (vars : Variables) (home : VarId → NodeId) (current : Option NodeId)
    (s : Progress) (strays declared : List String) (marks : List Mark) (s' : Progress) : Prop where
  synced : Synced src.graph vars home s'
  visited : s.visited ⊆ s'.visited
  kept : ∀ v, s.vars.isDeclared v = true → s'.vars.isDeclared v = true
  declares : ∃ ids : List (Option VarId), ids.reduceOption.Nodup ∧
    declared = ids.map (boundName vars) ∧
      ∀ v ∈ ids.reduceOption, s.vars.isDeclared v = false ∧ s'.vars.isDeclared v = true
  copies : ∀ id ∈ s'.visited, id ∉ s.visited → (src.node id).kind.isExit = true →
    Copied src marks id ∨ ∃ region, Catches src.graph region id
  guards : ∀ region handler v, Catches src.graph region handler → src.graph.Binds handler v →
    handler ∈ s'.visited → handler ∈ s.visited ∨ region ∉ s.visited ∨ current = some region
  strays : ∀ name ∈ strays, ∃ v, name = vars.name v ∧ Repeated src s marks (home v) ∧
    ∀ region, ¬ Catches src.graph region (home v)

namespace Scopes

variable {src : Source} {vars : Variables} {home : VarId → NodeId} {current : Option NodeId}
variable {s s₁ s₂ : Progress}
variable {marks marks' : List Mark} {strays strays' declared declared' : List String}

/-- Nothing is declared, and nothing is used. -/
theorem inert
    (hsynced : Synced src.graph vars home s)
    (hvisited : s₁.visited = s.visited)
    (hsame : s₁.vars = s.vars)
    (marks : List Mark) :
    Scopes src vars home current s [] [] marks s₁ where
  synced := ⟨hsame ▸ hsynced.same, hvisited ▸ hsame ▸ hsynced.visited, hvisited ▸ hsynced.regions⟩
  visited := hvisited ▸ List.Subset.refl _
  kept _ h := hsame ▸ h
  declares := ⟨[], List.nodup_nil, rfl, nofun⟩
  copies _ h hnew := absurd (hvisited ▸ h) hnew
  guards _ _ _ _ _ h := .inl (hvisited ▸ h)
  strays := nofun

theorem append
    (h : Scopes src vars home current s strays declared marks s₁)
    (h' : Scopes src vars home current s₁ strays' declared' marks' s₂) :
    Scopes src vars home current s (strays ++ strays') (declared ++ declared') (marks ++ marks')
      s₂ where
  synced := h'.synced
  visited := List.Subset.trans h.visited h'.visited
  kept v hv := h'.kept v (h.kept v hv)
  declares := by
    obtain ⟨ids, hnodup, hnames, hnew⟩ := h.declares
    obtain ⟨ids', hnodup', hnames', hnew'⟩ := h'.declares
    refine ⟨ids ++ ids', ?_, by rw [hnames, hnames', List.map_append], ?_⟩
    · rw [List.reduceOption_append]
      refine List.nodup_append.2 ⟨hnodup, hnodup', fun v hv u hu hsame => ?_⟩
      have honce := (hnew' u hu).1
      rw [← hsame, (hnew v hv).2] at honce
      cases honce
    · rw [List.reduceOption_append]
      intro v hv
      rcases List.mem_append.1 hv with hv | hv
      · exact ⟨(hnew v hv).1, h'.kept v (hnew v hv).2⟩
      · obtain ⟨hbefore, hbehind⟩ := hnew' v hv
        exact ⟨Bool.eq_false_iff.2 fun hearly => by simp [h.kept v hearly] at hbefore, hbehind⟩
  copies id hid hnew hleaves := by
    by_cases hearly : id ∈ s₁.visited
    · exact (h.copies id hearly hnew hleaves).imp_left fun hcopied => by
        simpa using hcopied.append [] marks'
    · exact (h'.copies id hid hearly hleaves).imp_left fun hcopied => by
        simpa using hcopied.append marks []
  guards region handler v hcatches hbinds hn := by
    rcases h'.guards region handler v hcatches hbinds hn with hn | hnew | hsame
    · exact h.guards region handler v hcatches hbinds hn
    · exact .inr (.inl fun hold => hnew (h.visited hold))
    · exact .inr (.inr hsame)
  strays name hname := by
    rcases List.mem_append.1 hname with hname | hname
    · obtain ⟨v, rfl, hrep, huncaught⟩ := h.strays name hname
      refine ⟨v, rfl, ⟨hrep.leaves, ?_⟩, huncaught⟩
      exact hrep.again.imp (fun ⟨hold, hcopied⟩ => ⟨hold, by simpa using hcopied.append [] marks'⟩)
        fun htwice => by simpa using htwice.append [] marks'
    · obtain ⟨v, rfl, hrep, huncaught⟩ := h'.strays name hname
      refine ⟨v, rfl, ⟨hrep.leaves, ?_⟩, huncaught⟩
      rcases hrep.again with ⟨hold, hcopied⟩ | htwice
      · by_cases hearly : home v ∈ s.visited
        · exact .inl ⟨hearly, by simpa using hcopied.append marks []⟩
        · obtain hfirst | ⟨region, hcaught⟩ := h.copies (home v) hold hearly hrep.leaves
          · exact .inr ⟨marks, marks', hfirst, hcopied, rfl⟩
          · exact absurd hcaught (huncaught region)
      · exact .inr (by simpa using htwice.append marks [])

theorem then_eq
    (h : Scopes src vars home current s strays declared marks s₁)
    (hvisited : s₂.visited = s₁.visited)
    (hsame : s₂.vars = s₁.vars) :
    Scopes src vars home current s strays declared marks s₂ := by
  simpa using h.append (.inert h.synced hvisited hsame [])

/-- What changes neither the visited nodes nor the variables may come first. -/
theorem after_eq
    (h : Scopes src vars home current s₁ strays declared marks s₂)
    (hsynced : Synced src.graph vars home s)
    (hvisited : s₁.visited = s.visited)
    (hsame : s₁.vars = s.vars) :
    Scopes src vars home current s strays declared marks s₂ := by
  simpa using (inert hsynced hvisited hsame []).append h

/-- What holds of code on its own does so within the code of a node. -/
theorem within
    (h : Scopes src vars home none s strays declared marks s₁)
    (current : Option NodeId) :
    Scopes src vars home current s strays declared marks s₁ :=
  { h with
    guards := fun region handler v hcatches hbinds hn =>
      (h.guards region handler v hcatches hbinds hn).imp_right (.inl <| ·.resolve_right nofun) }

end Scopes

theorem elseStrays_unlessEmpty
    (names : List String)
    (block : Block) :
    elseStrays names (unlessEmpty block) = blockStrays names block := by
  cases block <;> rfl

mutual

/-- What is dropped at the end of a loop body names no variable. -/
theorem blockStrays_dropFinalContinue
    (names : List String) :
    ∀ block : List Statement, blockStrays names (dropFinalContinue block) = blockStrays names block
  | [] => rfl
  | [s] => by
      rw [dropFinalContinue, blockStrays_dropContinue names s, blockStrays, blockStrays,
        List.append_nil]
  | s :: t :: rest => by
      rw [dropFinalContinue.eq_3 s (t :: rest) (List.cons_ne_nil t rest), Java.blockStrays_cons,
        blockStrays_dropFinalContinue _ (t :: rest), Java.blockStrays_cons names s]

theorem blockStrays_dropContinue
    (names : List String) :
    ∀ s : Statement, blockStrays names (dropContinue s) = s.strays names
  | .jump .continue _ => rfl
  | .jump .break _ => rfl
  | .jump .goto _ => rfl
  | .ifThen c thenBlock elseBlock => by
      rw [dropContinue, blockStrays, Statement.strays, Statement.strays,
        blockStrays_dropFinalContinue names thenBlock,
        elseStrays_dropElseContinue names elseBlock]
      simp
  | .block _ => by simp [dropContinue]
  | .whileLoop .. => by simp [dropContinue]
  | .doLoop .. => by simp [dropContinue]
  | .switch .. => by simp [dropContinue]
  | .tryCatch .. => by simp [dropContinue]
  | .ret _ => by simp [dropContinue]
  | .throw _ => by simp [dropContinue]
  | .expression _ => by simp [dropContinue]
  | .declaration .. => by simp [dropContinue]
  | .label _ => rfl

theorem elseStrays_dropElseContinue
    (names : List String) :
    ∀ elseBlock : Option (List Statement),
      elseStrays names (dropElseContinue elseBlock) = elseStrays names elseBlock
  | none => rfl
  | some block => by
      rw [dropElseContinue, elseStrays_unlessEmpty, blockStrays_dropFinalContinue names block,
        elseStrays]

end

theorem elseDeclared_unlessEmpty
    (block : Block) :
    elseDeclared (unlessEmpty block) = blockDeclared block := by
  cases block <;> rfl

mutual

/-- What is dropped at the end of a loop body declares nothing. -/
theorem blockDeclared_dropFinalContinue :
    ∀ block : List Statement, blockDeclared (dropFinalContinue block) = blockDeclared block
  | [] => rfl
  | [s] => by
      rw [dropFinalContinue, blockDeclared_dropContinue s, blockDeclared, blockDeclared,
        List.append_nil]
  | s :: t :: rest => by
      rw [dropFinalContinue.eq_3 s (t :: rest) (List.cons_ne_nil t rest), Java.blockDeclared_cons,
        blockDeclared_dropFinalContinue (t :: rest), Java.blockDeclared_cons s]

theorem blockDeclared_dropContinue :
    ∀ s : Statement, blockDeclared (dropContinue s) = s.declared
  | .jump .continue _ => rfl
  | .jump .break _ => rfl
  | .jump .goto _ => rfl
  | .ifThen _ thenBlock elseBlock => by
      rw [dropContinue, blockDeclared, Statement.declared, Statement.declared,
        blockDeclared_dropFinalContinue thenBlock, elseDeclared_dropElseContinue elseBlock]
      simp
  | .block _ => by simp [dropContinue]
  | .whileLoop .. => by simp [dropContinue]
  | .doLoop .. => by simp [dropContinue]
  | .switch .. => by simp [dropContinue]
  | .tryCatch .. => by simp [dropContinue]
  | .ret _ => by simp [dropContinue]
  | .throw _ => by simp [dropContinue]
  | .expression _ => by simp [dropContinue]
  | .declaration .. => by simp [dropContinue]
  | .label _ => rfl

theorem elseDeclared_dropElseContinue :
    ∀ elseBlock : Option (List Statement),
      elseDeclared (dropElseContinue elseBlock) = elseDeclared elseBlock
  | none => rfl
  | some block => by
      rw [dropElseContinue, elseDeclared_unlessEmpty, blockDeclared_dropFinalContinue block,
        elseDeclared]

end

section Supply

variable (src : Source) (vars : Variables) (home : VarId → NodeId)

/-- The variables of some kind that are needed from a node on are in scope. -/
structure Supplied (names : List String) (s : Progress) (id : NodeId) (which : VarId → Prop) :
    Prop where
  synced : Synced src.graph vars home s
  arguments : argumentNames vars ⊆ names
  held : ∀ v, Needs src.graph vars home id v → which v → Held vars names s v

/-- All variables that are needed from a node on are in scope. -/
abbrev Furnished (names : List String) (s : Progress) (id : NodeId) : Prop :=
  Supplied src vars home names s id fun _ => True

/-- The variables that a node needs from elsewhere are in scope. -/
structure Prepared (names : List String) (s : Progress) (id : NodeId) : Prop extends
    Supplied src vars home names s id fun v => home v ≠ id where
  entered : Entered src.graph id

/-- In front of the code of a node, the variables that are needed are in scope, except for those
that the code is going to declare, and its handlers have not been written. -/
structure Opened (names : List String) (s : Progress) (id : NodeId) : Prop extends
    Supplied src vars home names s id fun v => ¬ Settles src.graph home id v where
  entered : Entered src.graph id
  visited : id ∈ s.visited
  settled : ∀ v, Needs src.graph vars home id v → home v = id → s.vars.isDeclared v = true →
    vars.name v ∈ names
  fresh : ∀ handler v, Catches src.graph id handler → src.graph.Binds handler v →
    handler ∉ s.visited

variable {src vars home}

variable {names names' : List String} {s s' : Progress}
variable {id next : NodeId} {which which' : VarId → Prop}

theorem Held.widen
    {v : VarId}
    (h : Held vars names s v)
    (hsub : names ⊆ names') :
    Held vars names' s v :=
  ⟨hsub h.inScope, h.declared⟩

theorem Held.mono
    {v : VarId}
    (h : Held vars names s v)
    (hsub : names ⊆ names')
    (hkept : s.vars.isDeclared v = true → s'.vars.isDeclared v = true) :
    Held vars names' s' v :=
  ⟨hsub h.inScope, hkept h.declared⟩

namespace Supplied

/-- What is in scope stays so while more code is written. -/
theorem after
    {current : Option NodeId}
    {strays declared : List String}
    {marks : List Mark}
    (h : Supplied src vars home names s id which)
    (hwrote : Scopes src vars home current s strays declared marks s')
    (hsub : names ⊆ names') :
    Supplied src vars home names' s' id which where
  synced := hwrote.synced
  arguments := List.Subset.trans h.arguments hsub
  held v hneeds hv := (h.held v hneeds hv).mono hsub (hwrote.kept v)

theorem then_eq
    (h : Supplied src vars home names s id which)
    (hvisited : s'.visited = s.visited)
    (hsame : s'.vars = s.vars) :
    Supplied src vars home names s' id which :=
  have hstill : Scopes src vars home none s [] [] [] s' := .inert h.synced hvisited hsame []
  h.after hstill (List.Subset.refl _)

/-- On the way to another node, no more is needed. -/
theorem along
    (h : Supplied src vars home names s id which)
    (hway : Way src.graph id next)
    (hstill : ∀ v, Needs src.graph vars home next v → which v) :
    Supplied src vars home names s next fun v => home v ≠ next :=
  { h with held := fun v hneeds hapart => h.held v (.later hway hapart hneeds) (hstill v hneeds) }

/-- The conditions that a node tests use what is in scope. -/
theorem tests_subset
    (h : Supplied src vars home names s id which)
    (htested : ∀ v, Mentions src.graph vars id v → which v) :
    ∀ ins ∈ src.graph.tests id, ∀ v ∈ ins.reads, vars.name v ∈ names := by
  intro ins hins v hv
  cases hplain : vars.isParam v with
  | true => exact h.arguments (mem_argumentNames hplain)
  | false =>
      have hmentions : Mentions src.graph vars id v := ⟨hplain, .inr ⟨ins, hins, hv⟩⟩
      exact (h.held v (.here hmentions) (htested v hmentions)).inScope

end Supplied

theorem Supplied.super
    (h : Supplied src vars home names s id which) :
    "super" ∈ names :=
  h.arguments List.mem_cons_self

theorem Supplied.prepared
    (h : Furnished src vars home names s id)
    (hgoes : GoesOn src.graph id next) :
    Prepared src vars home names s next where
  toSupplied := h.along (.goesOn hgoes) fun _ _ => trivial
  entered := .inr ⟨id, hgoes⟩

/-- What needs no declaration in its block is in scope behind it. -/
theorem Supplied.prepared_behind
    (homes : Homes src.graph vars home)
    (h : Supplied src vars home names s id fun v => ¬ Settles src.graph home id v)
    (hgoes : GoesOn src.graph id next)
    (hleaves : Leaves src.graph id next) :
    Prepared src vars home names s next where
  toSupplied := h.along (.goesOn hgoes) fun v hneeds hsettles =>
    hsettles.2 (homes.outlives id next v hleaves hsettles.1 hneeds)
  entered := .inr ⟨id, hgoes⟩

theorem Opened.furnished
    (homes : Homes src.graph vars home)
    (h : Opened src vars home names s id)
    (hcode : src.graph.ownCode id = []) :
    Furnished src vars home names s id :=
  { h.toSupplied with
    held := fun v hneeds _ => h.held v hneeds (homes.not_settles h.entered hcode hneeds) }

end Supply

section Simple

variable {src : Source} {vars : Variables} {home : VarId → NodeId} {current : Option NodeId}
variable {names : List String} {s s' : Progress}

/-- Code that declares at most one variable, whose home has been visited. -/
theorem Scopes.of_declares
    {which : VarId → Prop}
    {bound : List String}
    (hsynced : Synced src.graph vars home s)
    (hvisited : s'.visited = s.visited)
    (hdeclares : Declares s.vars which bound s'.vars)
    (here : ∀ v, which v → vars.isParam v = false → s.vars.isUndeclared v = true →
      home v ∈ s.visited)
    (marks : List Mark) :
    Scopes src vars home current s [] bound marks s' := by
  generalize hvars : s'.vars = after at hdeclares
  cases hdeclares with
  | nothing => exact .inert hsynced hvisited hvars marks
  | @one v hmem hnew =>
      have hknown : (s.vars.get? v).isSome = true := by
        rw [Variables.isUndeclared] at hnew
        cases hfound : s.vars.get? v with
        | none => simp [hfound] at hnew
        | some x => rfl
      have hdeclared (u : VarId) : s'.vars.isDeclared u = true ↔
          s.vars.isDeclared u = true ∨ u = v := by
        rw [hvars, Variables.isDeclared_markDeclared]
        exact or_congr_right ⟨And.left, fun hsame => ⟨hsame, hsame ▸ hknown⟩⟩
      have hbefore : s.vars.isDeclared v = false := by
        refine Bool.eq_false_iff.2 fun hold => ?_
        rw [Variables.isUndeclared_eq_false_of_isDeclared hold] at hnew
        cases hnew
      exact
        { synced :=
            { same := hvars ▸ (sameVars_markDeclared s.vars v).trans hsynced.same
              visited := fun u hplain hu => by
                rcases (hdeclared u).1 hu with hold | rfl
                · exact hvisited ▸ hsynced.visited u hplain hold
                · exact hvisited ▸ here u hmem hplain hnew
              regions := hvisited ▸ hsynced.regions }
          visited := hvisited ▸ List.Subset.refl _
          kept := fun u hu => (hdeclared u).2 (.inl hu)
          declares := by
            refine ⟨[some v], List.nodup_singleton v, by simp [boundName, hsynced.same.name], ?_⟩
            intro u hu
            obtain rfl := List.mem_singleton.1 hu
            exact ⟨hbefore, (hdeclared u).2 (.inr rfl)⟩
          copies := fun _ h hfresh => absurd (hvisited ▸ h) hfresh
          guards := fun _ _ _ _ _ h => .inl (hvisited ▸ h)
          strays := fun _ hstray => absurd hstray List.not_mem_nil }

/-- A variable that some code mentions is in scope, or the code defines it first. -/
inductive Met (src : Source) (vars : Variables) (home : VarId → NodeId) (names : List String)
    (s : Progress) (code : List Instr) (v : VarId) : Prop
  | held (h : Held vars names s v)
  | defined (hfirst : DefinesFirst v code) (hknown : (vars.get? v).isSome = true)
      (here : home v ∈ s.visited) (hold : s.vars.isDeclared v = true → vars.name v ∈ names)

theorem blockDeclared_statement
    {w : Writing}
    {table : Variables}
    {ins : Instr} :
    blockDeclared (statement w table ins).1.toList =
      boundNames (statement w table ins).1.toList := by
  cases hwritten : (statement w table ins).1 with
  | none => rfl
  | some st =>
      rcases form_of_statement table w hwritten with hplain | hleaving
      · cases hplain <;> rfl
      · cases hleaving <;> rfl

theorem ensures_instruction_of
    {ins : Instr}
    {post : Block → Progress → Prop}
    (h : post (statement src.writing s.vars ins).1.toList
      { s with
        naming := s.naming.learnAll (statementMentions src.writing s.vars ins)
        vars := (statement src.writing s.vars ins).2 }) :
    Ensures (src.instruction ins) s post :=
  h

/-- Writing an instruction declares what it defines, unless this is in scope already. -/
theorem scoped_instruction
    {ins : Instr}
    {code : List Instr}
    (hsynced : Synced src.graph vars home s)
    (harguments : argumentNames vars ⊆ names)
    (hmet : ∀ v, vars.isParam v = false → v ∈ ins.reads ∨ ins.target? = some v →
      Met src vars home names s (ins :: code) v) :
    Ensures (src.instruction ins) s fun block s' =>
      Scopes src vars home current s [] (blockDeclared block) (blockMarks block) s' ∧
        blockStrays names block = [] ∧
        s'.visited = s.visited ∧
        ∀ v, vars.isParam v = false → Met src vars home names s (ins :: code) v →
          Met src vars home (names ++ boundNames block) s' code v := by
  have hreads : ∀ v ∈ ins.reads, s.vars.name v ∈ names := by
    intro v hv
    rw [hsynced.same.name]
    cases hplain : vars.isParam v with
    | true => exact harguments (mem_argumentNames hplain)
    | false =>
        cases hmet v hplain (.inl hv) with
        | held h => exact h.inScope
        | defined hfirst => exact absurd hv hfirst.1
  have hdefines : ∀ v, ins.target? = some v → declares s.vars v = false →
      s.vars.name v ∈ names := by
    intro v hv hold
    rw [hsynced.same.name]
    cases hplain : vars.isParam v with
    | true => exact harguments (mem_argumentNames hplain)
    | false =>
        cases hmet v hplain (.inr hv) with
        | held h => exact h.inScope
        | defined _ hknown _ hinScope =>
            refine hinScope (Variables.isDeclared_of_exists ?_ ?_)
            · rwa [hsynced.same.isSome_get?]
            · simpa [declares, hsynced.same.isParam, hplain] using hold
  have hnoStrays : blockStrays names (statement src.writing s.vars ins).1.toList = [] := by
    cases hwritten : (statement src.writing s.vars ins).1 with
    | none => rfl
    | some st =>
        simpa using strays_statement (harguments List.mem_cons_self) hreads hdefines st hwritten
  have here : ∀ v, ins.target? = some v → vars.isParam v = false →
      s.vars.isUndeclared v = true → home v ∈ s.visited := by
    intro v hv hplain hnew
    cases hmet v hplain (.inr hv) with
    | held h => simp [Variables.isUndeclared_eq_false_of_isDeclared h.declared] at hnew
    | defined _ _ here => exact here
  have hdeclared := declares_statement src.writing s.vars ins
  refine ensures_instruction_of ?_
  generalize hs : { s with
    naming := s.naming.learnAll (statementMentions src.writing s.vars ins)
    vars := (statement src.writing s.vars ins).2 } = s'
  have hvars : (statement src.writing s.vars ins).2 = s'.vars := by rw [← hs]
  have hvisited : s'.visited = s.visited := by rw [← hs]
  rw [hvars] at hdeclared
  have hwrote : Scopes src vars home current s []
      (blockDeclared (statement src.writing s.vars ins).1.toList)
      (blockMarks (statement src.writing s.vars ins).1.toList) s' := by
    rw [blockDeclared_statement]
    exact .of_declares hsynced hvisited hdeclared here _
  refine ⟨hwrote, hnoStrays, hvisited, fun v hplain hv => ?_⟩
  -- what has been declared when the instruction has been written is in scope if it was so before
  have hinScope (hold : s.vars.isDeclared v = true → vars.name v ∈ names)
      (hnew : s'.vars.isDeclared v = true) :
      vars.name v ∈ names ++ boundNames (statement src.writing s.vars ins).1.toList := by
    generalize boundNames (statement src.writing s.vars ins).1.toList = bound at hdeclared
    generalize s'.vars = after at hdeclared hnew
    cases hdeclared with
    | nothing => exact List.mem_append_left _ (hold hnew)
    | @one u =>
        rcases Variables.isDeclared_markDeclared.1 hnew with hbefore | ⟨rfl, -⟩
        · exact List.mem_append_left _ (hold hbefore)
        · exact List.mem_append_right _ (by simp [hsynced.same.name])
  cases hv with
  | held h => exact .held (h.mono (List.subset_append_left _ _) (hwrote.kept v))
  | defined hfirst hknown here hold =>
      obtain ⟨hunread, htarget | hlater⟩ := hfirst
      · have hbehind : s'.vars.isDeclared v = true := by
          refine Variables.isDeclared_of_exists ?_ ?_
          · rwa [hwrote.synced.same.isSome_get?]
          · rw [← hvars]
            exact isUndeclared_of_target htarget hunread (by rwa [hsynced.same.isParam])
        exact .held ⟨hinScope hold hbehind, hbehind⟩
      · exact .defined hlater hknown (hvisited ▸ here) (hinScope hold)

/-- Instructions declare what they define, if they define it before they read it. -/
theorem scoped_instructions
    {code : List Instr}
    (hsynced : Synced src.graph vars home s)
    (harguments : argumentNames vars ⊆ names)
    (hmet : ∀ v, vars.isParam v = false →
      (∃ ins ∈ code, v ∈ ins.reads ∨ ins.target? = some v) →
        Met src vars home names s code v) :
    Ensures (src.instructions code) s fun block s' =>
      Scopes src vars home current s [] (blockDeclared block) (blockMarks block) s' ∧
        blockStrays names block = [] ∧
        ∀ v, vars.isParam v = false → Met src vars home names s code v →
          Held vars (names ++ boundNames block) s' v := by
  induction code generalizing names s with
  | nil =>
      refine .pure ⟨.inert hsynced rfl rfl _, rfl, fun v _ hv => ?_⟩
      cases hv with
      | held h => exact h.widen (List.subset_append_left _ _)
      | defined hfirst => exact absurd hfirst id
  | cons ins code ih =>
      have hfirst := @scoped_instruction src vars home current names s ins code hsynced harguments
        fun v hplain hv => hmet v hplain ⟨ins, List.mem_cons_self, hv⟩
      refine hfirst.bind fun block s₁ ⟨hwrote, hnoStrays, _, hnext⟩ => ?_
      refine (ih hwrote.synced (List.Subset.trans harguments (List.subset_append_left _ _))
        fun v hplain ⟨later, hmem, hv⟩ => hnext v hplain
          (hmet v hplain ⟨later, List.mem_cons_of_mem ins hmem, hv⟩)).bind
        fun rest s₂ ⟨hwrote', hnoStrays', held⟩ => .pure ⟨?_, ?_, ?_⟩
      · rw [Java.blockDeclared_append, Java.blockMarks_append]
        exact hwrote.append hwrote'
      · rw [blockStrays_append, hnoStrays, hnoStrays', List.append_nil]
      · intro v hplain hv
        simpa using held v hplain (hnext v hplain hv)

/-- What declarations in front of a node have done when they are written. -/
structure Declared (src : Source) (vars : Variables) (home : VarId → NodeId) (s : Progress)
    (vs : List VarId) (block : Block) (s' : Progress) : Prop where
  wrote : Scopes src vars home none s [] (blockDeclared block) (blockMarks block) s'
  strays : ∀ names, blockStrays names block = []
  visited : s'.visited = s.visited
  all : ∀ v ∈ vs, vars.isParam v = false → (vars.get? v).isSome = true →
    s'.vars.isDeclared v = true
  only : ∀ v, s'.vars.isDeclared v = true →
    s.vars.isDeclared v = true ∨ v ∈ vs ∧ vars.name v ∈ boundNames block

theorem declared_declareVar
    (v : VarId)
    (hsynced : Synced src.graph vars home s)
    (here : vars.isParam v = false → home v ∈ s.visited) :
    Ensures (Source.declareVar v) s (Declared src vars home s [v]) := by
  have hnothing {s' : Progress} (hvisited : s'.visited = s.visited) (hsame : s'.vars = s.vars)
      (hall : vars.isParam v = false → (vars.get? v).isSome = true → s.vars.isDeclared v = true) :
      Declared src vars home s [v] [] s' :=
    { wrote := .inert hsynced hvisited hsame []
      strays := fun _ => rfl
      visited := hvisited
      all := fun u hu hplain hknown => by
        obtain rfl := List.mem_singleton.1 hu
        exact hsame ▸ hall hplain hknown
      only := fun u hu => .inl (hsame ▸ hu) }
  refine .get_bind ?_
  dsimp only
  split
  · next hparam =>
      refine .pure (hnothing rfl rfl fun hplain => ?_)
      rw [hsynced.same.isParam, hplain] at hparam
      cases hparam
  · refine .modify_bind ?_
    split
    · next hnew =>
        refine .modify_bind (.pure ?_)
        have hdeclares : Declares s.vars (fun u => u = v) [s.vars.name v] (s.vars.markDeclared v) :=
          .one rfl hnew
        exact
          { wrote := by
              refine .of_declares hsynced ?_ hdeclares (fun u hsame hplain _ => ?_) _
              · rfl
              · exact (hsame : u = v) ▸ here ((hsame : u = v) ▸ hplain)
            strays := fun _ => rfl
            visited := rfl
            all := fun u hu _ hknown => Variables.isDeclared_markDeclared.2 <| .inr
              ⟨List.mem_singleton.1 hu, by rwa [hsynced.same.isSome_get?]⟩
            only := fun u hu => (Variables.isDeclared_markDeclared.1 hu).imp_right fun ⟨hsame, _⟩ =>
              ⟨List.mem_singleton.2 hsame, by simp [hsame, boundNames, Statement.bound, declaration,
                hsynced.same.name]⟩ }
    · next hold =>
        refine .pure (hnothing rfl rfl fun _ hknown => Variables.isDeclared_of_exists ?_ ?_)
        · rwa [hsynced.same.isSome_get?]
        · simpa using hold

theorem declared_declareVars
    (vs : List VarId)
    (hsynced : Synced src.graph vars home s)
    (here : ∀ v ∈ vs, vars.isParam v = false → home v ∈ s.visited) :
    Ensures (Source.declareVars vs) s (Declared src vars home s vs) := by
  induction vs generalizing s with
  | nil =>
      exact .pure
        { wrote := .inert hsynced rfl rfl []
          strays := fun _ => rfl
          visited := rfl
          all := nofun
          only := fun _ hv => .inl hv }
  | cons v vs ih =>
      have hfirst : Ensures (Source.declareVar v) s (Declared src vars home s [v]) :=
        declared_declareVar v hsynced (here v List.mem_cons_self)
      refine hfirst.bind fun first s₁ hone => ?_
      refine (ih hone.wrote.synced fun u hu hplain => ?_).bind fun more s₂ hrest => .pure ?_
      · exact hone.visited ▸ here u (List.mem_cons_of_mem v hu) hplain
      · exact
          { wrote := by
              rw [Java.blockDeclared_append, Java.blockMarks_append]
              exact hone.wrote.append hrest.wrote
            strays := fun names => by
              rw [blockStrays_append, hone.strays, hrest.strays, List.append_nil]
            visited := hrest.visited.trans hone.visited
            all := fun u hu hplain hknown => by
              rcases List.mem_cons.1 hu with rfl | hu
              · exact hrest.wrote.kept u (hone.all u List.mem_cons_self hplain hknown)
              · exact hrest.all u hu hplain hknown
            only := fun u hu => by
              rw [Java.boundNames_append]
              rcases hrest.only u hu with hu | ⟨hmem, hbound⟩
              · refine (hone.only u hu).imp_right fun ⟨hmem, hbound⟩ => ?_
                exact ⟨List.mem_singleton.1 hmem ▸ List.mem_cons_self,
                  List.mem_append_left _ hbound⟩
              · exact .inr ⟨List.mem_cons_of_mem v hmem, List.mem_append_right _ hbound⟩ }

end Simple

section Testing

variable {src : Source} {vars : Variables} {home : VarId → NodeId}
variable {names : List String} {s : Progress} {id : NodeId} {which : VarId → Prop}

theorem locals_asOperand
    (e : Expression) :
    e.asOperand.locals = e.locals := by
  cases e <;> rfl

/-- A condition names the variables that the instructions read of which it is made. -/
theorem locals_conditionWithin
    {table : Variables}
    (hsuper : "super" ∈ names)
    {depth : Nat}
    (negate : Bool)
    (hreads : ∀ ins ∈ src.graph.testsWithin depth id, ∀ v ∈ ins.reads, table.name v ∈ names) :
    (src.conditionWithin table depth id negate).locals ⊆ names := by
  induction depth generalizing id negate with
  | zero => exact List.nil_subset _
  | succ depth ih =>
      rw [FlowGraph.testsWithin] at hreads
      rw [Source.conditionWithin, Source.node]
      split
      · next sc hjoined =>
          simp only [hjoined, List.mem_append] at hreads
          refine List.append_subset.2 ⟨?_, ?_⟩
          · rw [locals_asOperand]
            exact ih _ fun ins hins => hreads ins (.inl hins)
          · rw [locals_asOperand]
            exact ih _ fun ins hins => hreads ins (.inr hins)
      · next hplain =>
          have hlast : ∀ ins, (src.graph.node id).ins.getLast? = some ins →
              ∀ v ∈ ins.reads, table.name v ∈ names := by
            intro ins hins
            refine hreads ins ?_
            split
            · next sc hjoined => exact absurd hjoined (hplain sc)
            · simp [hins]
          split
          · next ins hins => exact locals_condition _ hsuper ins negate (hlast ins hins)
          · exact List.nil_subset _

/-- An expression that uses what is in scope, in whatever statement it stands. -/
structure TestScopes (src : Source) (vars : Variables) (home : VarId → NodeId) (names : List String)
    (s : Progress) (e : Expression) (s' : Progress) : Prop where
  wrote : ∀ current marks, Scopes src vars home current s [] [] marks s'
  inScope : outside names e.locals = []

theorem tests_conditionOf
    (h : Supplied src vars home names s id which)
    (htested : ∀ v, Mentions src.graph vars id v → which v)
    (negate : Bool) :
    Ensures (src.conditionOf id negate) s (TestScopes src vars home names s) := by
  refine .get_bind <| .modify_bind <| .pure ⟨fun _ => .inert h.synced (by rfl) (by rfl), ?_⟩
  refine outside_eq_nil.2 (locals_conditionWithin h.super negate fun ins hins v hv => ?_)
  rw [h.synced.same.name]
  exact h.tests_subset htested ins hins v hv

theorem Synced.mark
    (hsynced : Synced src.graph vars home s)
    (howned : ∀ region v, Catches src.graph region id → src.graph.Binds id v →
      region ∈ s.visited) :
    Synced src.graph vars home { s with visited := OrderedSet.insert s.visited id } where
  same := hsynced.same
  visited v hplain hv := OrderedSet.mem_insert.2 (.inl (hsynced.visited v hplain hv))
  regions region handler v hcatches hbinds hn := by
    refine OrderedSet.mem_insert.2 (.inl ?_)
    rcases OrderedSet.mem_insert.1 hn with hold | rfl
    · exact hsynced.regions region handler v hcatches hbinds hold
    · exact howned region v hcatches hbinds

/-- A node is marked that is not written here. -/
theorem scopes_markVisited
    {current : Option NodeId}
    (hsynced : Synced src.graph vars home s)
    (hmarked : (src.node id).kind.isExit = false ∨ ∃ region, Catches src.graph region id)
    (howned : ∀ region v, Catches src.graph region id → src.graph.Binds id v →
      region ∈ s.visited ∧ current = some region) :
    Scopes src vars home current s [] [] []
      { s with visited := OrderedSet.insert s.visited id } where
  synced := hsynced.mark fun region v hcatches hbinds => (howned region v hcatches hbinds).1
  visited _ hn := OrderedSet.mem_insert.2 (.inl hn)
  kept _ hv := hv
  declares := ⟨[], List.nodup_nil, rfl, nofun⟩
  copies n hn hnew hleaves := by
    obtain rfl := (OrderedSet.mem_insert.1 hn).resolve_left hnew
    refine .inr (hmarked.resolve_left fun hstays => ?_)
    rw [hstays] at hleaves
    cases hleaves
  guards region handler v hcatches hbinds hn := by
    rcases OrderedSet.mem_insert.1 hn with hold | rfl
    · exact .inl hold
    · exact .inr (.inr (howned region v hcatches hbinds).2)
  strays := nofun

theorem isExit_of_cond
    {kind : NodeKind}
    (hcond : kind.isCond = true) :
    kind.isExit = false := by
  induction kind with
  | loop inner type ih => exact ih hcond
  | conditional | shortCircuit => rfl
  | _ => cases hcond

theorem not_binds_of_cond
    (hcond : (src.node id).kind.isCond = true)
    (v : VarId) :
    ¬ src.graph.Binds id v := by
  rintro ⟨start, type, hkind⟩
  rw [Source.node, hkind] at hcond
  cases hcond

/-- The condition at the end of a loop uses what is in scope around the loop. -/
theorem tests_latchCondition
    (homes : Homes src.graph vars home)
    (h : Supplied src vars home names s id fun v => ¬ Settles src.graph home id v)
    {inner : NodeKind}
    (hloop : Inside (.loop inner .postTest) (src.node id).kind) :
    Ensures (src.latchCondition id (src.node id).latch) s (TestScopes src vars home names s) := by
  unfold Source.latchCondition
  split
  · next latch hfound =>
      obtain ⟨hlatch, hcond⟩ := Option.filter_eq_some_iff.1 hfound
      have hbehind : TestedBehind src.graph id latch := ⟨hloop, hlatch, hcond⟩
      have hmarked (current : Option NodeId) : Scopes src vars home current s [] [] []
          { s with visited := OrderedSet.insert s.visited latch } :=
        scopes_markVisited h.synced (.inl (isExit_of_cond hcond)) fun _ v _ hbinds =>
          absurd hbinds (not_binds_of_cond hcond v)
      have hneeded : Supplied src vars home names s latch (Mentions src.graph vars latch) := by
        refine { h with held := fun v hneeds hmentions => h.held v ?_ fun hsettles => ?_ }
        · by_cases here : home v = latch
          · obtain rfl := homes.tested id latch v hbehind here hmentions
            exact hneeds
          · exact .later (.testedBehind hbehind) here hneeds
        · exact hsettles.2 (homes.outlives id latch v (.condition hbehind) hsettles.1 hneeds)
      refine .modify_bind ?_
      refine (tests_conditionOf (hneeded.after (hmarked none) (List.Subset.refl _))
        (fun _ hmentions => hmentions) _).mono fun e s' htest =>
        ⟨fun current marks => ?_, htest.inScope⟩
      simpa using (hmarked current).append (htest.wrote current marks)
  · exact .modify_bind <| .pure ⟨fun _ => .inert h.synced (by rfl) (by rfl), rfl⟩

end Testing

end Emission
end DalvikDecompiler
