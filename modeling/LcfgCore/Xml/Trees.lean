import LcfgCore.Xml.Resource

/-!
# Profiles as trees

The reader of a profile sees the nodes of a document one after another. What it makes of an
element depends on the tree below this element only, and it goes through the whole tree.

## Main result

`processResource_nodes`: on the nodes of an element the reader comes to what the tree stands for,
and stops at the end of the element.
-/
namespace Lcfg

namespace XmlProfile

open XmlReader
open XmlReader.Tree (behind nodesAll)

variable {κ : Type} (compare : String → String → Int) (signedChar : Bool) (target : Target κ)
  (ctxlist : LCFGContextList) (baseDerivation : Option String)

mutual

/-- What an element stands for as a resource: the component, and the tag for its parent. -/
def resourceOf (scope : Scope) (comp : κ) : Tree → Except Failure (κ × Option String)
  | .leaf .. => .ok (comp, none)
  | .closed .. => .ok (comp, none)
  | .element name attributes children line endLine =>
    let node := Tree.first 0 (.element name attributes children line endLine)
    if isEmpty (target.name comp) then .error (.message "Invalid component")
    else do
      let (res, tags) ←
        openResource compare signedChar baseDerivation scope (target.name comp) node
      let s ← contentsOf tags { comp, res } children
      closeResource signedChar target ctxlist s (getLcfgtagname node)

/-- What an element stands for as a record. -/
def recordOf (scope : Scope) (comp : κ) : Tree → Except Failure (κ × Option String)
  | .leaf .. => .ok (comp, none)
  | .closed .. => .ok (comp, none)
  | .element name attributes children line endLine =>
    match getLcfgtagname (Tree.first 0 (.element name attributes children line endLine)) with
    | none => .error (.message ("Missing cfg:name attribute for '" ++ name ++ "' record node"))
    | some tagname => do
      let tags ← appendTag scope.tags tagname
      let comp ← recordContentsOf { scope with tags := some tags } comp children
      .ok (comp, some tagname)

/-- The contents of a resource. -/
def contentsOf (tags : Option LCFGTagList) (s : Reading κ) :
    List Tree → Except Failure (Reading κ)
  | [] => .ok s
  | .leaf type name value line :: rest => do
    let s ← contentLeaf (target.name s.comp) (Tree.first 0 (.leaf type name value line)) type s
    contentsOf tags s rest
  | .closed .. :: rest => contentsOf tags s rest
  | .element name attributes children line endLine :: rest => do
    let below : Scope := { templates := s.res.template, tags, context := s.res.context }
    let (comp, tag) ←
      if isRecord name then recordOf below s.comp (.element name attributes children line endLine)
      else resourceOf below s.comp (.element name attributes children line endLine)
    let s ← addChildTag s comp tag
    contentsOf tags s rest

/-- The contents of a record. -/
def recordContentsOf (scope : Scope) (comp : κ) : List Tree → Except Failure κ
  | [] => .ok comp
  | .leaf type name value line :: rest =>
    if (NodeType.leaf type).isWhitespace then recordContentsOf scope comp rest
    else .error (unexpected (Tree.first 0 (.leaf type name value line)) "record")
  | .closed .. :: rest => recordContentsOf scope comp rest
  | .element name attributes children line endLine :: rest => do
    let (comp, _) ← resourceOf scope comp (.element name attributes children line endLine)
    recordContentsOf scope comp rest

end

/-- One tree of the contents of a resource. -/
def contentOf (tags : Option LCFGTagList) (s : Reading κ) : Tree → Except Failure (Reading κ)
  | .leaf type name value line =>
    contentLeaf (target.name s.comp) (Tree.first 0 (.leaf type name value line)) type s
  | .closed .. => .ok s
  | .element name attributes children line endLine => do
    let below : Scope := { templates := s.res.template, tags, context := s.res.context }
    let (comp, tag) ←
      if isRecord name then
        recordOf compare signedChar target ctxlist baseDerivation below s.comp
          (.element name attributes children line endLine)
      else
        resourceOf compare signedChar target ctxlist baseDerivation below s.comp
          (.element name attributes children line endLine)
    addChildTag s comp tag

/-- One tree of the contents of a record, or of a component. -/
def partOf (place : Node → Failure) (scope : Scope) (comp : κ) : Tree → Except Failure κ
  | .leaf type name value line =>
    if (NodeType.leaf type).isWhitespace then .ok comp
    else .error (place (Tree.first 0 (.leaf type name value line)))
  | .closed .. => .ok comp
  | .element name attributes children line endLine =>
    (resourceOf compare signedChar target ctxlist baseDerivation scope comp
      (.element name attributes children line endLine)).map Prod.fst

section

variable {compare signedChar target ctxlist baseDerivation}

theorem contentsOf_eq (tags : Option LCFGTagList) (s : Reading κ) (children : List Tree) :
    contentsOf compare signedChar target ctxlist baseDerivation tags s children =
      children.foldlM (contentOf compare signedChar target ctxlist baseDerivation tags) s := by
  induction children generalizing s with
  | nil =>
    rw [contentsOf]
    rfl
  | cons child rest ih =>
    rw [List.foldlM_cons]
    cases child with
    | leaf type name value line =>
      rw [contentsOf, contentOf]
      simp only [ih]
    | closed name attributes line =>
      rw [contentsOf, contentOf]
      exact ih s
    | element name attributes children line endLine =>
      rw [contentsOf, contentOf]
      simp only [ih]
      split
      case isTrue => simp only [bind_assoc]
      case isFalse => simp only [bind_assoc]

theorem recordContentsOf_eq (scope : Scope) (comp : κ) (children : List Tree) :
    recordContentsOf compare signedChar target ctxlist baseDerivation scope comp children =
      children.foldlM (partOf compare signedChar target ctxlist baseDerivation
        (unexpected · "record") scope) comp := by
  induction children generalizing comp with
  | nil =>
    rw [recordContentsOf]
    rfl
  | cons child rest ih =>
    rw [List.foldlM_cons]
    cases child with
    | leaf type name value line =>
      rw [recordContentsOf, partOf]
      split
      case isTrue => exact ih comp
      case isFalse => rfl
    | closed name attributes line =>
      rw [recordContentsOf, partOf]
      exact ih comp
    | element name attributes children line endLine =>
      rw [recordContentsOf, partOf]
      simp only [ih]
      cases resourceOf compare signedChar target ctxlist baseDerivation scope comp
        (.element name attributes children line endLine) with
      | error e => rfl
      | ok result => rfl

end

/-! ## Nodes and trees -/

mutual

/-- No record is an empty element. -/
def recordsOpen : Tree → Bool
  | .leaf .. => true
  | .closed name _ _ => !isRecord name
  | .element _ _ children _ _ => allOpen children

def allOpen : List Tree → Bool
  | [] => true
  | tree :: rest => recordsOpen tree && allOpen rest

end

theorem allOpen_iff (children : List Tree) :
    allOpen children = true ↔ ∀ child ∈ children, recordsOpen child = true := by
  induction children with
  | nil => simp [allOpen]
  | cons child rest ih => simp [allOpen, ih]

section Nodes

variable {compare signedChar target ctxlist baseDerivation} {bound : Nat}
  {process : Scope → κ → Node → List Node → Except Failure (Processed κ)}

/-- An element with less than `bound` nodes behind it is read as what it stands for. -/
def ReadsTrees (compare : String → String → Int) (signedChar : Bool) (target : Target κ)
    (ctxlist : LCFGContextList) (baseDerivation : Option String) (bound : Nat)
    (process : Scope → κ → Node → List Node → Except Failure (Processed κ)) : Prop :=
  ∀ scope comp tree depth more, tree.isLeaf = false → recordsOpen tree = true →
    (behind depth tree).length < bound →
    process scope comp (tree.first depth) (behind depth tree ++ more) =
      (resourceOf compare signedChar target ctxlist baseDerivation scope comp tree).map fun r =>
        { comp := r.1, tag := r.2, reader := tree.last depth :: more }

/-- The nodes behind a tree which stands among others are fewer than theirs. -/
theorem length_behind_lt {depth : Nat} {children : List Tree} {child : Tree}
    (member : child ∈ children) : (behind depth child).length < (nodesAll depth children).length := by
  induction children with
  | nil => cases member
  | cons first rest ih =>
    rw [nodesAll, List.length_cons, List.length_append]
    rcases List.mem_cons.mp member with rfl | later
    · omega
    · have inRest := ih later
      omega

theorem recordRound_nodes
    (reads : ReadsTrees compare signedChar target ctxlist baseDerivation bound process)
    {scope : Scope} {comp : κ} {child : Tree} (opened : recordsOpen child = true) (top : Node)
    (few : (behind (top.depth + 1) child).length < bound) (more : List Node) :
    recordRound (process scope) top comp (child.first (top.depth + 1))
        (behind (top.depth + 1) child ++ more) =
      (partOf compare signedChar target ctxlist baseDerivation (unexpected · "record") scope comp
        child).map fun comp => { state := comp, reader := child.last (top.depth + 1) :: more } := by
  cases child with
  | leaf type name value line =>
    rw [recordRound, partOf, if_pos (Tree.first_depth _ _), if_neg (by simp [Tree.first])]
    change (if (NodeType.leaf type).isWhitespace = true then _ else _) = _
    split
    case isTrue => rfl
    case isFalse => rfl
  | closed name attributes line =>
    rw [recordRound, if_pos (Tree.first_depth _ _), if_pos (Tree.first_type rfl _),
      reads _ _ _ _ _ rfl opened few, partOf, resourceOf]
    rfl
  | element name attributes children line endLine =>
    rw [recordRound, if_pos (Tree.first_depth _ _), if_pos (Tree.first_type rfl _),
      reads _ _ _ _ _ rfl opened few, partOf]
    cases resourceOf compare signedChar target ctxlist baseDerivation scope comp
      (.element name attributes children line endLine) with
    | error e => rfl
    | ok r => rfl

/-- The end of an element. -/
theorem recordRound_end {name : String} {top : Node} (named : name = top.name) (scope : Scope)
    (comp : κ) (line : Nat) (more : List Node) :
    let end_ : Node := { type := .endElement, depth := top.depth, name, line }
    recordRound (process scope) top comp end_ more =
      .ok { state := comp, reader := end_ :: more, done := true } := by
  intro end_
  rw [recordRound, if_neg (by simp [end_]), if_pos ⟨rfl, rfl⟩, if_pos named]

/-- The loop over the contents of a record goes up to its end. -/
theorem recordLoop_nodes
    (reads : ReadsTrees compare signedChar target ctxlist baseDerivation bound process)
    (scope : Scope) (comp : κ) {name : String} {attributes : List (String × String)}
    {children : List Tree} {line endLine depth : Nat}
    (opened : ∀ child ∈ children, recordsOpen child = true)
    (few : (behind depth (.element name attributes children line endLine)).length < bound)
    (more : List Node) :
    loop .stuck (recordRound (process scope)
        (Tree.first depth (.element name attributes children line endLine)))
        ((behind depth (.element name attributes children line endLine) ++ more).length + 1) comp
        (behind depth (.element name attributes children line endLine) ++ more) =
      (recordContentsOf compare signedChar target ctxlist baseDerivation scope comp children).map
        fun comp => (comp, Tree.last depth (.element name attributes children line endLine) :: more) := by
  rw [recordContentsOf_eq]
  apply loop_behind
  · intro comp child member more
    apply recordRound_nodes reads (opened child member)
    rw [behind, List.length_append] at few
    exact Nat.lt_trans (length_behind_lt member) (Nat.lt_of_le_of_lt (Nat.le_add_right _ _) few)
  · intro comp
    exact recordRound_end rfl scope comp endLine more
  · rw [List.length_append]
    omega

theorem processRecord_nodes
    (reads : ReadsTrees compare signedChar target ctxlist baseDerivation bound process)
    (scope : Scope) (comp : κ) {name : String} {attributes : List (String × String)}
    {children : List Tree} {line endLine depth : Nat}
    (opened : ∀ child ∈ children, recordsOpen child = true)
    (few : (behind depth (.element name attributes children line endLine)).length < bound)
    (more : List Node) :
    processRecord process scope comp
        (Tree.first depth (.element name attributes children line endLine))
        (behind depth (.element name attributes children line endLine) ++ more) =
      (recordOf compare signedChar target ctxlist baseDerivation scope comp
        (.element name attributes children line endLine)).map fun r =>
          { comp := r.1, tag := r.2,
            reader := Tree.last depth (.element name attributes children line endLine) :: more } := by
  have same : getLcfgtagname (Tree.first depth (.element name attributes children line endLine)) =
      getLcfgtagname (Tree.first 0 (.element name attributes children line endLine)) := rfl
  rw [processRecord, recordOf, same]
  cases getLcfgtagname (Tree.first 0 (.element name attributes children line endLine)) with
  | none => rfl
  | some tagname =>
    dsimp only
    cases appendTag scope.tags tagname with
    | error e => rfl
    | ok tags =>
      have walked := recordLoop_nodes reads { scope with tags := some tags } comp opened few more
      simp only [bind, Except.bind, walked]
      cases recordContentsOf compare signedChar target ctxlist baseDerivation
        { scope with tags := some tags } comp children with
      | error e => rfl
      | ok comp => rfl

theorem resourceRound_nodes
    (reads : ReadsTrees compare signedChar target ctxlist baseDerivation bound process)
    (tags : Option LCFGTagList) {s : Reading κ} {child : Tree} (opened : recordsOpen child = true)
    (top : Node) (few : (behind (top.depth + 1) child).length < bound) (more : List Node) :
    resourceRound target process top tags s (child.first (top.depth + 1))
        (behind (top.depth + 1) child ++ more) =
      (contentOf compare signedChar target ctxlist baseDerivation tags s child).map fun s =>
        { state := s, reader := child.last (top.depth + 1) :: more } := by
  cases child with
  | leaf type name value line =>
    rw [resourceRound, contentOf, if_pos (Tree.first_depth _ _)]
    rfl
  | closed name attributes line =>
    have plain : isRecord (Tree.first (top.depth + 1) (.closed name attributes line)).name = false := by
      rwa [recordsOpen, Bool.not_eq_true'] at opened
    rw [resourceRound, if_pos (Tree.first_depth _ _), Tree.first_type rfl, processChild, plain]
    dsimp only
    rw [if_neg Bool.false_ne_true, reads _ _ _ _ _ rfl opened few, resourceOf]
    rfl
  | element name attributes children line endLine =>
    have named : (Tree.first (top.depth + 1) (.element name attributes children line endLine)).name =
      name := rfl
    rw [resourceRound, if_pos (Tree.first_depth _ _), Tree.first_type rfl, processChild, contentOf,
      named]
    dsimp only
    by_cases record : isRecord name = true
    · rw [recordsOpen, allOpen_iff] at opened
      rw [if_pos record, if_pos record, processRecord_nodes reads _ _ opened few]
      cases recordOf compare signedChar target ctxlist baseDerivation
        ⟨s.res.template, tags, s.res.context⟩ s.comp
        (.element name attributes children line endLine) with
      | error e => rfl
      | ok r =>
        simp only [Except.map, bind, Except.bind]
    · rw [if_neg record, if_neg record, reads _ _ _ _ _ rfl opened few]
      cases resourceOf compare signedChar target ctxlist baseDerivation
        ⟨s.res.template, tags, s.res.context⟩ s.comp
        (.element name attributes children line endLine) with
      | error e => rfl
      | ok r =>
        simp only [Except.map, bind, Except.bind]

theorem resourceRound_end {name : String} {top : Node} (named : name = top.name)
    (tags : Option LCFGTagList) (s : Reading κ) (line : Nat) (more : List Node) :
    let end_ : Node := { type := .endElement, depth := top.depth, name, line }
    resourceRound target process top tags s end_ more =
      .ok { state := s, reader := end_ :: more, done := true } := by
  intro end_
  rw [resourceRound, if_neg (by simp [end_]), if_pos ⟨rfl, rfl⟩, if_pos named]

/-- The loop over the contents of a resource goes up to its end. -/
theorem resourceLoop_nodes
    (reads : ReadsTrees compare signedChar target ctxlist baseDerivation bound process)
    (tags : Option LCFGTagList) (s : Reading κ) {name : String}
    {attributes : List (String × String)} {children : List Tree} {line endLine depth : Nat}
    (opened : ∀ child ∈ children, recordsOpen child = true)
    (few : (behind depth (.element name attributes children line endLine)).length ≤ bound)
    (more : List Node) :
    loop .stuck (resourceRound target process
        (Tree.first depth (.element name attributes children line endLine)) tags)
        ((behind depth (.element name attributes children line endLine) ++ more).length + 1) s
        (behind depth (.element name attributes children line endLine) ++ more) =
      (contentsOf compare signedChar target ctxlist baseDerivation tags s children).map
        fun s => (s, Tree.last depth (.element name attributes children line endLine) :: more) := by
  rw [contentsOf_eq]
  apply loop_behind
  · intro s child member more
    apply resourceRound_nodes reads tags (opened child member)
    rw [behind, List.length_append] at few
    exact Nat.lt_of_lt_of_le (length_behind_lt member) (Nat.le_trans (Nat.le_add_right _ _) few)
  · intro s
    exact resourceRound_end rfl tags s endLine more
  · rw [List.length_append]
    omega

/-- On the nodes of an element the reader comes to what the element stands for, and is on the last
node of it. -/
theorem processResource_nodes (n : Nat) :
    ReadsTrees compare signedChar target ctxlist baseDerivation n
      (processResource compare signedChar target ctxlist baseDerivation n) := by
  -- each level has fewer nodes than the one above it
  induction n with
  | zero =>
    intro scope comp tree depth more element opened few
    exact absurd few (Nat.not_lt_zero _)
  | succ n ih =>
    intro scope comp tree depth more element opened few
    cases tree with
    | leaf => cases element
    | closed name attributes line =>
      rw [processResource, resourceOf]
      rfl
    | element name attributes children line endLine =>
      rw [recordsOpen, allOpen_iff] at opened
      have same : openResource compare signedChar baseDerivation scope (target.name comp)
            (Tree.first depth (.element name attributes children line endLine)) =
          openResource compare signedChar baseDerivation scope (target.name comp)
            (Tree.first 0 (.element name attributes children line endLine)) := rfl
      rw [processResource, resourceOf, if_neg (by simp [Tree.first]), same]
      dsimp only
      split
      case isTrue => rfl
      case isFalse =>
        cases openResource compare signedChar baseDerivation scope (target.name comp)
          (Tree.first 0 (.element name attributes children line endLine)) with
        | error e => rfl
        | ok start =>
          have walked := resourceLoop_nodes ih start.2 { comp, res := start.1 } opened
            (Nat.le_of_lt_succ few) more
          simp only [bind, Except.bind, walked]
          cases contentsOf compare signedChar target ctxlist baseDerivation start.2
            { comp, res := start.1 } children with
          | error e => rfl
          | ok s =>
            have tag : getLcfgtagname
                (Tree.first depth (.element name attributes children line endLine)) =
              getLcfgtagname (Tree.first 0 (.element name attributes children line endLine)) := rfl
            simp only [Except.map, tag]

end Nodes

end XmlProfile

end Lcfg
