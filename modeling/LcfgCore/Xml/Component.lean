import LcfgCore.Components.Prioritised
import LcfgCore.Xml.Trees

/-!
# Reading components from a profile

A component is read from the elements below its own one, each of which is a resource with all
that is below it (`xml/components.c`).

## Main results

`component_alike`: a component holds the best of what has been offered to it.
`processComponent_nodes`: a component is read from the nodes of its element as the tree of the
element says.
-/
namespace Lcfg

namespace XmlProfile

open XmlReader
open XmlReader.Tree (behind)
open PlainComponent (active)
open TypedResource (Undisputed buildMessage kept offer undisputed_concat)

variable {κ : Type} (compare : String → String → Int) (signedChar : Bool) (target : Target κ)
  (ctxlist : LCFGContextList) (baseContext baseDerivation : Option String) (compName : String)

def unexpectedIn (node : Node) : Failure :=
  .message ("Unexpected element '" ++ node.name ++ "' of type " ++ toString node.type.number ++
    " at line " ++ toString node.line ++ " whilst processing '" ++ compName ++ "' component.")

def unexpectedEndIn (node : Node) : Failure :=
  .message ("Unexpected end element '" ++ node.name ++ "' at line " ++ toString node.line ++
    " whilst processing '" ++ compName ++ "' component.")

/-- One node of `lcfgxml_process_component`. -/
def componentRound (top : Node) (comp : κ) (node : Node) (rest : List Node) :
    Except Failure (Round κ) :=
  match node.type with
  | .element =>
    if node.depth = top.depth + 1 then
      (processResource compare signedChar target ctxlist baseDerivation (rest.length + 1)
        { context := baseContext } comp node rest).map fun done =>
          { state := done.comp, reader := done.reader }
    else .error (unexpectedIn compName node)
  | .endElement =>
    if node.depth = top.depth ∧ node.name = compName then
      .ok { state := comp, reader := node :: rest, done := true }
    else .error (unexpectedEndIn compName node)
  | .leaf type =>
    if (NodeType.leaf type).isWhitespace then .ok { state := comp, reader := node :: rest }
    else .error (unexpectedIn compName node)

/-- `lcfgxml_process_component`, from a new component; there is none for an empty element. -/
def processComponent (start : κ) (node : Node) (rest : List Node) :
    Except Failure (Option κ × List Node) :=
  if node.emptyElement then .ok (none, node :: rest)
  else if Resource.validName (some compName) = false then
    .error (.message ("Invalid LCFG component name '" ++ compName ++ "'"))
  else
    (loop .stuck (componentRound compare signedChar target ctxlist baseContext baseDerivation
      compName node) (rest.length + 1) start rest).map fun r => (some r.1, r.2)

/-! ## What is offered to a component -/

/-- All resources which are offered to a component, one after another. -/
structure Offers where
  compName : String
  offers : List TypedResource := []

/-- An offer is refused with the resource which it is in conflict with. -/
def Target.offers : Target Offers where
  name o := some o.compName
  merge o res :=
    let name := res.name.getD ""
    match offer (kept o.offers) name res with
    | none => .error (buildMessage (kept o.offers name) none "conflict")
    | some (_, change) => .ok ({ o with offers := o.offers ++ [res] }, change)

variable {compare signedChar target ctxlist baseContext baseDerivation compName}
  {hash : String → Nat}

/-- A component holds what is left of its offers. -/
structure Holding (hash : String → Nat) (signedChar : Bool) (ctxlist : LCFGContextList)
    (l : Loading) (o : Offers) : Prop where
  valid : Resource.validName (some o.compName) = true
  holds : Loading.Holds hash o.compName l (kept o.offers)
  prioritised : l.Prioritised
  undisputed : Undisputed o.offers
  stored : ∀ r ∈ o.offers, Stored signedChar ctxlist r

theorem newPrioritised_holding (valid : Resource.validName (some compName) = true) :
    Holding hash signedChar ctxlist (Loading.newPrioritised compName) { compName } := by
  obtain ⟨holds, prioritised⟩ := @Loading.newPrioritised_holds hash compName
  refine ⟨valid, holds, prioritised, fun before new after split => ?_, fun r none_ => ?_⟩
  · have nothing := congrArg List.length split
    rw [List.length_append] at nothing
    cases nothing
  · cases none_

/-- What a component shows is the best of its offers. -/
theorem Holding.best {l : Loading} {o : Offers} (holding : Holding hash signedChar ctxlist l o)
    {name : String} {r : TypedResource} (here : kept o.offers name = some r) :
    TypedResource.Best o.offers name r ∧ r ∈ o.offers := by
  have best := holding.undisputed.best name
  rw [here] at best
  obtain ⟨before, after, split, -⟩ := best.last
  exact ⟨best, by rw [split]; simp⟩

/-- A conflict is reported with the resource which is there. -/
theorem conflictMessage_eq {l : Loading} {contents : String → Option TypedResource}
    (holds : Loading.Holds hash compName l contents) {name : String} {cur : TypedResource}
    (here : contents name = some cur) :
    Bdb.conflictMessage hash l name = buildMessage (contents name) none "conflict" := by
  have found := holds.findResource name
  rw [here] at found
  obtain ⟨a, place, same⟩ := Option.map_eq_some_iff.mp found
  rw [Bdb.conflictMessage, place, here, ← same]

theorem offer_none {contents : String → Option TypedResource} {name : String}
    {res : TypedResource} (refused : offer contents name res = none) :
    ∃ cur, contents name = some cur := by
  rw [offer] at refused
  cases here : contents name with
  | none =>
    rw [here] at refused
    cases refused
  | some cur => exact ⟨cur, rfl⟩

theorem offer_change {contents contents' : String → Option TypedResource} {name : String}
    {res : TypedResource} {change : LCFGChange}
    (taken : offer contents name res = some (contents', change)) : change ≠ .error := by
  rw [offer] at taken
  split at taken
  · cases taken
    simp
  · split at taken
    · cases taken
      simp
    · cases taken
      simp
    · cases taken

theorem exists_of_validName {given : Option String} (valid : Resource.validName given = true) :
    ∃ name, given = some name := by
  cases given with
  | none => cases valid
  | some name => exact ⟨name, rfl⟩

/-- The component and its offers cannot be told apart by the reader. -/
theorem component_alike : Alike signedChar ctxlist (Target.component hash) Target.offers
    (Holding hash signedChar ctxlist) where
  name l o holding := holding.holds.named.symm
  merge l o res holding stored := by
    obtain ⟨name, named⟩ := exists_of_validName stored.named
    have some_ : name ≠ "" := TypedResource.validName_ne (named ▸ stored.named)
    have merged := holding.holds.mergeByPriority holding.prioritised named some_
    rw [Target.component, Target.offers]
    dsimp only
    rw [named, Option.getD_some]
    cases offered : offer (kept o.offers) name res with
    | none =>
      rw [offered] at merged
      obtain ⟨cur, here⟩ := offer_none offered
      have refused : l.mergeResource hash res = ((l.mergeResource hash res).1, .error) := by
        rw [← merged]
      rw [refused, conflictMessage_eq holding.holds here]
      exact .stop trivial
    | some result =>
      obtain ⟨contents', change⟩ := result
      rw [offered] at merged
      obtain ⟨same, holds', prioritised'⟩ := merged
      have taken : l.mergeResource hash res = ((l.mergeResource hash res).1, change) := by
        rw [← same]
      have concat : kept (o.offers ++ [res]) = contents' := by
        rw [TypedResource.kept_concat, named, Option.getD_some, offered]
        rfl
      have added : Holding hash signedChar ctxlist (l.mergeResource hash res).1
          { o with offers := o.offers ++ [res] } := by
        refine ⟨holding.valid, concat ▸ holds', prioritised', undisputed_concat.mpr ⟨holding.undisputed, ?_⟩, ?_⟩
        · rw [named, Option.getD_some, offered]
          simp
        · intro r inside
          rcases List.mem_append.mp inside with earlier | last
          · exact holding.stored r earlier
          · exact (List.mem_singleton.mp last) ▸ stored
      have ok := offer_change offered
      rw [taken]
      cases change with
      | error => exact absurd rfl ok
      | _ => exact .pure ⟨added, rfl⟩

/-! ## Any nodes -/

section Agreement

variable {κ' : Type} {target' : Target κ'} {belong : κ → κ' → Prop} {s : κ} {t : κ'}

theorem componentRound_agree (alike : Alike signedChar ctxlist target target' belong) (top : Node)
    (belongs : belong s t) (node : Node) (rest : List Node) :
    Outcome.Agree IsMessage (fun r r' => belong r.state r'.state ∧
        (r'.reader, r'.done) = (r.reader, r.done) ∧ r.reader.length ≤ rest.length + 1)
      (componentRound compare signedChar target ctxlist baseContext baseDerivation compName top s
        node rest)
      (componentRound compare signedChar target' ctxlist baseContext baseDerivation compName top t
        node rest) := by
  rw [componentRound, componentRound]
  split
  case h_1 =>
    split
    case isTrue =>
      have base : Scope.Fits { context := baseContext } :=
        ⟨.inl rfl, fun tag none_ => absurd none_ List.not_mem_nil⟩
      apply (processResource_agree alike _ _ s t node rest base belongs (Nat.lt_succ_self _)).map
      intro p p' same
      exact ⟨same.comp, by rw [same.reader], same.shorter⟩
    case isFalse => exact .stop ⟨_, rfl⟩
  case h_2 =>
    split
    case isTrue => exact passed_agree belongs node rest true
    case isFalse => exact .stop ⟨_, rfl⟩
  case h_3 =>
    split
    case isTrue => exact passed_agree belongs node rest false
    case isFalse => exact .stop ⟨_, rfl⟩

theorem processComponent_agree (alike : Alike signedChar ctxlist target target' belong)
    (belongs : belong s t) (node : Node) (rest : List Node) :
    Outcome.Agree IsMessage (fun r r' => Option.Rel belong r.1 r'.1 ∧ r'.2 = r.2 ∧
        r.2.length ≤ rest.length + 1)
      (processComponent compare signedChar target ctxlist baseContext baseDerivation compName s node
        rest)
      (processComponent compare signedChar target' ctxlist baseContext baseDerivation compName t node
        rest) := by
  rw [processComponent, processComponent]
  split
  case isTrue => exact .pure ⟨.none, rfl, Nat.le_of_eq List.length_cons⟩
  case isFalse =>
    split
    case isTrue => exact .stop ⟨_, rfl⟩
    case isFalse =>
      have rounds (s : κ) (t : κ') (node' : Node) (rest' : List Node) (belongs : belong s t)
          (_ : rest'.length < rest.length) :=
        @componentRound_agree _ compare signedChar target ctxlist baseContext baseDerivation compName
          _ target' belong s t alike node belongs node' rest'
      apply (loop_agree rounds belongs (Nat.le_succ _)).map
      rintro r r' ⟨belongs', reader, le⟩
      exact ⟨.some belongs', reader, Nat.le_succ_of_le le⟩

end Agreement

/-! ## The tree of a component -/

theorem componentRound_nodes {comp : κ} {child : Tree} (opened : recordsOpen child = true)
    (top : Node) (more : List Node) :
    componentRound compare signedChar target ctxlist baseContext baseDerivation compName top comp
        (child.first (top.depth + 1)) (behind (top.depth + 1) child ++ more) =
      (partOf compare signedChar target ctxlist baseDerivation (unexpectedIn compName)
        { context := baseContext } comp child).map fun comp =>
          { state := comp, reader := child.last (top.depth + 1) :: more } := by
  have few : (behind (top.depth + 1) child).length <
      (behind (top.depth + 1) child ++ more).length + 1 := by
    rw [List.length_append]
    omega
  cases child with
  | leaf type name value line =>
    rw [componentRound, partOf]
    change (if (NodeType.leaf type).isWhitespace = true then _ else _) = _
    split
    case isTrue => rfl
    case isFalse => rfl
  | closed name attributes line =>
    rw [componentRound, Tree.first_type rfl]
    dsimp only
    rw [if_pos (Tree.first_depth _ _), processResource_nodes _ _ _ _ _ _ rfl opened few,
      partOf, resourceOf]
    rfl
  | element name attributes children line endLine =>
    rw [componentRound, Tree.first_type rfl]
    dsimp only
    rw [if_pos (Tree.first_depth _ _), processResource_nodes _ _ _ _ _ _ rfl opened few, partOf]
    cases resourceOf compare signedChar target ctxlist baseDerivation { context := baseContext } comp
      (.element name attributes children line endLine) with
    | error e => rfl
    | ok r => rfl

theorem processComponent_nodes (valid : Resource.validName (some compName) = true) (start : κ)
    {attributes : List (String × String)} {children : List Tree} {line endLine depth : Nat}
    (opened : ∀ child ∈ children, recordsOpen child = true) (more : List Node) :
    processComponent compare signedChar target ctxlist baseContext baseDerivation compName start
        (Tree.first depth (.element compName attributes children line endLine))
        (behind depth (.element compName attributes children line endLine) ++ more) =
      (children.foldlM (partOf compare signedChar target ctxlist baseDerivation
        (unexpectedIn compName) { context := baseContext }) start).map fun comp =>
          (some comp,
            Tree.last depth (.element compName attributes children line endLine) :: more) := by
  rw [processComponent, if_neg (by simp [Tree.first]), if_neg (by simp [valid])]
  have walked := @loop_behind κ Failure .stuck
    (componentRound compare signedChar target ctxlist baseContext baseDerivation compName
      (Tree.first depth (.element compName attributes children line endLine)))
    _ depth ((behind depth (.element compName attributes children line endLine) ++ more).length + 1)
    compName attributes children line endLine start more
    (fun comp child member more => componentRound_nodes (opened child member) _ more)
    (fun comp => by rw [componentRound]; exact if_pos ⟨rfl, rfl⟩)
    (by rw [List.length_append]; omega)
  rw [walked]
  cases children.foldlM (partOf compare signedChar target ctxlist baseDerivation
    (unexpectedIn compName) { context := baseContext }) start with
  | error e => rfl
  | ok comp => rfl

end XmlProfile

end Lcfg
