import LcfgCore.Bdb.Read
import LcfgCore.Library.XmlReader
import LcfgCore.Resources.Inherited
import LcfgCore.Utils.Scanning

/-!
# Reading resources from a profile

The element of a resource may have elements for other resources below it, and records of them.
Each level gives its context, its templates and its tags to the next one
(`xml/resource.c`). A string has one character for each of its bytes, and none of them is NUL.

## Main results

`processResource_agree`: what is read does not depend on how a component keeps its resources. On
any nodes a resource is read or refused, and only resources as the setters leave them come into
a component.
-/
namespace Lcfg

namespace XmlProfile

open XmlReader
open TypedResource (addContext addDerivationString buildMessage canonBoolean evalPriority isActive)

/-! ## Names, tags and attributes -/

/-- Why nothing is read. -/
inductive Failure where
  | message (text : String)
  -- an access out of bounds
  | undefined
  -- more rounds than there are nodes
  | stuck
deriving DecidableEq

/-- `get_lcfgtagname`: an underscore in front is not part of the name. -/
def getLcfgtagname (node : Node) : Option String :=
  (node.attribute "cfg:name").map fun tagname =>
    if 2 ≤ tagname.length ∧ tagname.toList.head? = some '_' then String.ofList tagname.toList.tail
    else tagname

/-- What a level gives to the ones below it. -/
structure Scope where
  templates : List String := []
  tags : Option LCFGTagList := none
  context : Option String

/-- `lcfgtaglist_mutate_append` for a list which is made when it is needed. -/
def appendTag (tags : Option LCFGTagList) (tagname : String) : Except Failure LCFGTagList :=
  (TagList.appendToken (tags.getD []) tagname.toList).mapError fun tagmsg =>
    .message ("Failed to append to list of tags: " ++ tagmsg)

def currentTags (tags : Option LCFGTagList) (tagname : Option String) :
    Except Failure (Option LCFGTagList) :=
  match tagname with
  | none => .ok tags
  | some tagname => (appendTag tags tagname).map some

/-- A resource and the message of what has failed. -/
abbrev Gathered := TypedResource × Option String

/-- The next attribute is looked at unless there is a message already. -/
def Gathered.next (gathered : Gathered) (step : TypedResource → Gathered) : Gathered :=
  match gathered with
  | (res, some msg) => (res, some msg)
  | (res, none) => step res

variable {κ : Type} (compare : String → String → Int) (signedChar : Bool)

/-- What an attribute with some text in it does. -/
def gatherText (node : Node) (key : String) (res : TypedResource)
    (step : String → Gathered) : Gathered :=
  match node.attribute key with
  | none => (res, none)
  | some text => if text = "" then (res, none) else step text

def gatherDerivation (compName : Option String) (node : Node) (res : TypedResource) : Gathered :=
  gatherText node "cfg:derivation" res fun derivation =>
    let (res, ok) := addDerivationString res (some derivation)
    (res, if ok then none
      else some (buildMessage (some res) compName ("Invalid derivation '" ++ derivation ++ "'")))

def gatherContext (compName : Option String) (node : Node) (res : TypedResource) : Gathered :=
  gatherText node "cfg:context" res fun context =>
    let (res, ok) :=
      if res.hasContext then addContext compare signedChar res (some context)
      else TypedResource.setContext signedChar res (some context)
    (res, if ok then none
      else some (buildMessage (some res) compName ("Invalid context '" ++ context ++ "'")))

def gatherType (compName : Option String) (node : Node) (res : TypedResource) : Gathered :=
  gatherText node "cfg:type" res fun type =>
    let attempt := TypedResource.setTypeAsString res (some type)
    (attempt.res, if attempt.ok then none
      else some (buildMessage (some attempt.res) compName
        ("Invalid type '" ++ type ++ "': " ++ attempt.msg.getD "(null)")))

/-- A template makes a list of the resource. It is set even where that fails. -/
def gatherTemplate (compName : Option String) (node : Node) (res : TypedResource) : Gathered :=
  match node.attribute "cfg:template" with
  | none => (res, none)
  | some template =>
    let (res, isList) := TypedResource.setType res .list
    let msg :=
      if isList then none else some (buildMessage (some res) compName "Failed to set type to 'list'")
    if template = "" then (res, msg)
    else
      let attempt := TypedResource.setTemplateAsString res (some template)
      (attempt.res, if attempt.ok then msg
        else some (buildMessage (some attempt.res) compName
          ("Invalid template '" ++ template ++ "': " ++ attempt.msg.getD "(null)")))

/-- `lcfgxml_gather_resource_attributes` -/
def gatherResourceAttributes (compName : Option String) (node : Node) (res : TypedResource) :
    Gathered :=
  (((gatherDerivation compName node res).next (gatherContext compare signedChar compName node)).next
    (gatherType compName node)).next (gatherTemplate compName node)

/-- The name of the element, or what its template makes of it, and a message if that fails. -/
def resourceName (templates : List String) (tags : Option LCFGTagList) (nodeName : String) :
    Except Failure (Option String × Option String) :=
  if templates = [] then .ok (some nodeName, none)
  else
    match TypedResource.buildName (Template.ofTexts templates) tags nodeName with
    | none => .error .undefined
    | some (.error msg) => .ok (none, some msg)
    | some (.ok resname) => .ok (some resname, none)

/-- The beginning of `lcfgxml_process_resource`: the resource before its contents are read, and the
tags for these. A bad name is reported once the attributes have been gathered. -/
def openResource (baseDerivation : Option String) (scope : Scope) (compName : Option String)
    (node : Node) : Except Failure (TypedResource × Option LCFGTagList) := do
  let tags ← currentTags scope.tags (getLcfgtagname node)
  let (res, contextOk) := addContext compare signedChar TypedResource.new scope.context
  let (res, derivationOk) := addDerivationString res baseDerivation
  if !contextOk then
    .error (.message (buildMessage (some TypedResource.new) compName
      ("Failed to set base context '" ++ scope.context.getD "" ++ "'")))
  else if !derivationOk then
    .error (.message (buildMessage (some res) compName
      ("Failed to set base derivation '" ++ baseDerivation.getD "" ++ "'")))
  else
    let (resname, nameMsg) ← resourceName scope.templates tags node.name
    let name := resname.filter fun resname => Resource.validName (some resname)
    let (res, msg) := gatherResourceAttributes compare signedChar compName node { res with name }
    match name, msg with
    | none, _ =>
      .error (.message (buildMessage (some res) compName
        ("Invalid name '" ++ resname.getD "(null)" ++ "'" ++ nameMsg.elim "" (": " ++ ·))))
    | some _, some msg => .error (.message msg)
    | some _, none => .ok (res, tags)

/-! ## Contents -/

/-- A component, as far as the reader of resources looks at it. -/
structure Target (κ : Type) where
  name : κ → Option String
  merge : κ → TypedResource → Except String (κ × LCFGChange)

/-- `lcfgcomponent_merge_resource` with its message. -/
def Target.component (hash : String → Nat) : Target Loading where
  name l := l.comp.name
  merge l res :=
    match l.mergeResource hash res with
    | (_, .error) => .error (Bdb.conflictMessage hash l (res.name.getD ""))
    | (l, change) => .ok (l, change)

/-- A resource while its contents are read. -/
structure Reading (κ : Type) where
  comp : κ
  res : TypedResource
  childTags : LCFGTagList := []

/-- What has been read: the tag is for the level above, and the reader is on the last node which has
been used, if there is one. -/
structure Processed (κ : Type) where
  comp : κ
  tag : Option String
  reader : List Node

/-- The text of a resource. It is not looked at for a list. -/
def setText (compName : Option String) (res : TypedResource) (nodevalue : String) :
    Except Failure TypedResource :=
  let set (value : Option String) : Except Failure TypedResource :=
    match TypedResource.setValue res value with
    | (res, true) => .ok res
    | (res, false) =>
      .error (.message (buildMessage (some res) compName ("Invalid value '" ++ nodevalue ++ "'")))
  if res.type = .boolean ∧ TypedResource.validBoolean nodevalue = false then
    set (canonBoolean nodevalue)
  else if res.type ≠ .list then set (some nodevalue)
  else .ok res

def unexpected (node : Node) (place : String) : Failure :=
  .message ("Unexpected element '" ++ node.name ++ "' of type " ++ toString node.type.number ++
    " at line '" ++ toString node.line ++ "' whilst processing " ++ place ++ ".")

def unexpectedEnd (node : Node) (place : String) : Failure :=
  .message ("Unexpected end element '" ++ node.name ++ "' at line '" ++ toString node.line ++
    "' whilst processing " ++ place ++ ".")

/-- The types of nodes with the text of a resource. -/
def isText : LeafType → Bool
  | .text | .cdata | .significantWhitespace => true
  | _ => false

/-- What stands below a resource, elements apart. -/
def contentLeaf (compName : Option String) (node : Node) (type : LeafType) (s : Reading κ) :
    Except Failure (Reading κ) :=
  if isText type then (setText compName s.res node.value).map fun res => { s with res }
  else .error (unexpected node "resource")

/-- The tag of a child, if it has one for its parent. -/
def addChildTag (s : Reading κ) (comp : κ) (tag : Option String) : Except Failure (Reading κ) :=
  match tag with
  | none => .ok { s with comp }
  | some tag => (appendTag (some s.childTags) tag).map fun childTags => { s with comp, childTags }

/-- The name of a record ends with `_RECORD`. -/
def isRecord (name : String) : Bool := Utils.stringEndswith name.toList "_RECORD".toList

variable (target : Target κ) (ctxlist : LCFGContextList) (baseDerivation : Option String)

/-- The end of `lcfgxml_process_resource`: the tags of the children are the value of their parent,
which goes into the component if it is active. -/
def closeResource (s : Reading κ) (tagname : Option String) : Except Failure (κ × Option String) :=
  let compName := target.name s.comp
  let taglist := String.ofList ([' '].intercalate (s.childTags.map String.toList))
  let (res, listed) :=
    if s.childTags = [] then (s.res, true) else TypedResource.setValue s.res (some taglist)
  if !listed then
    .error (.message (buildMessage (some res) compName ("Failed to set taglist '" ++ taglist ++ "'")))
  else
    let (res, evaluated) := evalPriority signedChar ctxlist res
    if !evaluated then
      .error (.message (buildMessage (some res) compName "Failed to evaluate context: "))
    else if isActive res then
      match target.merge s.comp res with
      | .error mergeMsg =>
        .error (.message (buildMessage (some res) compName
          ("Failed to merge resource: " ++ mergeMsg)))
      -- there is no tag for a resource which was there already
      | .ok (comp, change) => .ok (comp, if change = .added then tagname else none)
    else .ok (s.comp, none)

/-! ## The loops -/

/-- One node of `lcfgxml_process_record`. -/
def recordRound (process : κ → Node → List Node → Except Failure (Processed κ)) (top : Node)
    (comp : κ) (node : Node) (rest : List Node) : Except Failure (Round κ) :=
  if node.depth = top.depth + 1 then
    if node.type = .element then
      (process comp node rest).map fun done => { state := done.comp, reader := done.reader }
    else if node.type.isWhitespace then .ok { state := comp, reader := node :: rest }
    else .error (unexpected node "record")
  else if node.depth = top.depth ∧ node.type = .endElement then
    if node.name = top.name then .ok { state := comp, reader := node :: rest, done := true }
    else .error (unexpectedEnd node "record")
  else .error (unexpected node "record")

/-- `lcfgxml_process_record`, whose tag always is for the parent. A record which is an empty element
has no end. -/
def processRecord (process : Scope → κ → Node → List Node → Except Failure (Processed κ))
    (scope : Scope) (comp : κ) (node : Node) (rest : List Node) : Except Failure (Processed κ) :=
  match getLcfgtagname node with
  | none =>
    .error (.message ("Missing cfg:name attribute for '" ++ node.name ++ "' record node"))
  | some tagname => do
    let tags ← appendTag scope.tags tagname
    let (comp, reader) ← loop .stuck (recordRound (process { scope with tags := some tags }) node)
      (rest.length + 1) comp rest
    .ok { comp, tag := some tagname, reader }

/-- An element below a resource is a record, or another resource. -/
def processChild (process : Scope → κ → Node → List Node → Except Failure (Processed κ))
    (scope : Scope) (comp : κ) (node : Node) (rest : List Node) : Except Failure (Processed κ) :=
  if isRecord node.name then processRecord process scope comp node rest
  else process scope comp node rest

/-- One node of `lcfgxml_process_resource`. -/
def resourceRound (process : Scope → κ → Node → List Node → Except Failure (Processed κ))
    (top : Node) (tags : Option LCFGTagList) (s : Reading κ) (node : Node) (rest : List Node) :
    Except Failure (Round (Reading κ)) :=
  if node.depth = top.depth + 1 then
    match node.type with
    | .leaf type =>
      (contentLeaf (target.name s.comp) node type s).map fun s =>
        { state := s, reader := node :: rest }
    | .element => do
      let done ← processChild process { templates := s.res.template, tags, context := s.res.context }
        s.comp node rest
      let s ← addChildTag s done.comp done.tag
      .ok { state := s, reader := done.reader }
    | .endElement => .error (unexpected node "resource")
  else if node.depth = top.depth ∧ node.type = .endElement then
    if node.name = top.name then .ok { state := s, reader := node :: rest, done := true }
    else .error (unexpectedEnd node "resource")
  else .error (unexpected node "resource")

/-- `lcfgxml_process_resource`: the reader is on the node of the resource. One level of elements
needs one more step. -/
def processResource : Nat → Scope → κ → Node → List Node → Except Failure (Processed κ)
  | 0, _, _, _, _ => .error .stuck
  | n + 1, scope, comp, node, rest =>
    if node.emptyElement then .ok { comp, tag := none, reader := node :: rest }
    else if isEmpty (target.name comp) then .error (.message "Invalid component")
    else do
      let (res, tags) ←
        openResource compare signedChar baseDerivation scope (target.name comp) node
      let (s, reader) ← loop .stuck (resourceRound target (processResource n) node tags)
        (rest.length + 1) { comp, res } rest
      let (comp, tag) ← closeResource signedChar target ctxlist s (getLcfgtagname node)
      .ok { comp, tag, reader }

/-! ## Resources which have been opened -/

section Opened

variable {compare signedChar ctxlist baseDerivation}

/-- A resource with a name, as the setters leave it. -/
structure Opened (signedChar : Bool) (res : TypedResource) : Prop
    extends TypedResource.Formed signedChar res where
  named : Resource.validName res.name = true

theorem Opened.of_frame {res res' : TypedResource} (opened : Opened signedChar res)
    (formed : TypedResource.Formed signedChar res') (frame : res'.name = res.name) :
    Opened signedChar res' := ⟨formed, frame ▸ opened.named⟩

/-- The attributes leave a resource as the setters do, and its name alone. -/
structure Gathers (signedChar : Bool) (res : TypedResource) (gathered : Gathered) : Prop where
  formed : TypedResource.Formed signedChar res → TypedResource.Formed signedChar gathered.1
  name : gathered.1.name = res.name

theorem Gathers.nothing (res : TypedResource) (msg : Option String) :
    Gathers signedChar res (res, msg) := ⟨id, rfl⟩

theorem Gathers.next {res : TypedResource} {gathered : Gathered} {step : TypedResource → Gathered}
    (first : Gathers signedChar res gathered) (second : ∀ res, Gathers signedChar res (step res)) :
    Gathers signedChar res (gathered.next step) := by
  obtain ⟨res', msg⟩ := gathered
  cases msg with
  | some msg => exact first
  | none =>
    exact ⟨fun formed => (second res').formed (first.formed formed),
      (second res').name.trans first.name⟩

theorem gatherText_gathers {node : Node} {key : String} {res : TypedResource}
    {step : String → Gathered} (gathers : ∀ text, Gathers signedChar res (step text)) :
    Gathers signedChar res (gatherText node key res step) := by
  rw [gatherText]
  split
  case h_1 => exact .nothing res none
  case h_2 text _ =>
    split
    case isTrue => exact .nothing res none
    case isFalse => exact gathers text

theorem setContext_name (res : TypedResource) (newCtx : Option String) :
    (TypedResource.setContext signedChar res newCtx).1.name = res.name := by
  rw [TypedResource.setContext]
  split <;> rfl

theorem addContext_name (res : TypedResource) (extraContext : Option String) :
    (addContext compare signedChar res extraContext).1.name = res.name := by
  rw [addContext]
  split
  case isTrue => rfl
  case isFalse => exact setContext_name res _

theorem addDerivationString_name (res : TypedResource) (extraDeriv : Option String) :
    (addDerivationString res extraDeriv).1.name = res.name := by
  rw [addDerivationString]
  split
  case isTrue => rfl
  case isFalse =>
    split
    case h_1 => rfl
    case h_2 => split <;> rfl

theorem gatherDerivation_gathers (compName : Option String) (node : Node) (res : TypedResource) :
    Gathers signedChar res (gatherDerivation compName node res) :=
  gatherText_gathers fun derivation =>
    ⟨fun formed => formed.addDerivationString _, addDerivationString_name res (some derivation)⟩

theorem gatherContext_gathers (compName : Option String) (node : Node) (res : TypedResource) :
    Gathers signedChar res (gatherContext compare signedChar compName node res) := by
  apply gatherText_gathers
  intro context
  dsimp only
  split
  case isTrue => exact ⟨fun formed => formed.addContext _, addContext_name res (some context)⟩
  case isFalse => exact ⟨fun formed => formed.setContext _, setContext_name res (some context)⟩

theorem gatherType_gathers (compName : Option String) (node : Node) (res : TypedResource) :
    Gathers signedChar res (gatherType compName node res) :=
  gatherText_gathers fun type =>
    ⟨fun formed => formed.setTypeAsString _, (TypedResource.setTypeAsString_frame res (some type)).name⟩

theorem gatherTemplate_gathers (compName : Option String) (node : Node) (res : TypedResource) :
    Gathers signedChar res (gatherTemplate compName node res) := by
  rw [gatherTemplate]
  split
  case h_1 => exact .nothing res none
  case h_2 template _ =>
    have typed : ∀ msg, Gathers signedChar res ((TypedResource.setType res .list).1, msg) :=
      fun msg => ⟨fun formed => formed.setType .list, (TypedResource.setType_frame res .list).name⟩
    generalize TypedResource.setType res .list = attempt at typed
    obtain ⟨res', isList⟩ := attempt
    dsimp only at typed ⊢
    split
    case isTrue => exact typed _
    case isFalse =>
      refine ⟨fun formed => ((typed none).formed formed).setTemplateAsString _, ?_⟩
      exact (TypedResource.setTemplateAsString_frame res' (some template)).name.trans (typed none).name

theorem gatherResourceAttributes_gathers (compName : Option String) (node : Node)
    (res : TypedResource) :
    Gathers signedChar res (gatherResourceAttributes compare signedChar compName node res) :=
  (((gatherDerivation_gathers compName node res).next (gatherContext_gathers compName node)).next
    (gatherType_gathers compName node)).next (gatherTemplate_gathers compName node)

/-- Why a resource may be refused. -/
def IsMessage (failure : Failure) : Prop := ∃ text, failure = .message text

theorem appendTag_ends {tags : Option LCFGTagList}
    (valid : ∀ tag ∈ tags.getD [], TagList.validTag tag = true) (tagname : String) :
    Outcome.Ends IsMessage (appendTag tags tagname) fun tags =>
      ∀ tag ∈ tags, TagList.validTag tag = true := by
  have appended : Outcome.Ends (fun _ => True)
      (TagList.appendToken (tags.getD []) tagname.toList) fun tags =>
        ∀ tag ∈ tags, TagList.validTag tag = true := by
    rw [TagList.appendToken, TagList.mutateAppend]
    generalize String.ofList ((String.ofList tagname.toList).toList.dropWhile isSpace) = name
    generalize String.ofList (tagname.toList.dropWhile isSpace) = refused
    split
    case h_1 => exact .inl ⟨_, rfl, trivial⟩
    case h_2 tags' change _ appended =>
      split at appended
      case isTrue fits =>
        obtain rfl := (Prod.mk.inj appended).1
        refine .pure fun tag member => ?_
        rcases List.mem_append.mp member with earlier | last
        · exact valid tag earlier
        · rwa [List.mem_singleton.mp last]
      case isFalse =>
        obtain ⟨rfl, rfl⟩ := Prod.mk.inj appended
        exact .pure valid
  exact appended.mapError fun tagmsg _ => ⟨_, rfl⟩

theorem currentTags_ends {tags : Option LCFGTagList}
    (valid : ∀ tag ∈ tags.getD [], TagList.validTag tag = true) (tagname : Option String) :
    Outcome.Ends IsMessage (currentTags tags tagname) fun tags =>
      ∀ tag ∈ tags.getD [], TagList.validTag tag = true := by
  cases tagname with
  | none => exact .pure valid
  | some tagname =>
    rw [currentTags]
    exact (appendTag_ends valid tagname).map fun tags valid => valid

theorem resourceName_ends {templates : List String} (accepted : TypedResource.Accepted templates)
    {tags : Option LCFGTagList} (valid : ∀ tag ∈ tags.getD [], TagList.validTag tag = true)
    (nodeName : String) :
    Outcome.Ends IsMessage (resourceName templates tags nodeName) fun _ => True := by
  rw [resourceName]
  split
  case isTrue => exact .pure trivial
  case isFalse =>
    have built := TypedResource.buildName_ends accepted valid nodeName
    split
    case h_1 missing =>
      rw [missing] at built
      cases built
    case h_2 => exact .pure trivial
    case h_3 => exact .pure trivial

/-- What a level gives to the ones below it is as the setters accept it. -/
structure Scope.Fits (scope : Scope) : Prop where
  templates : TypedResource.Accepted scope.templates
  tags : ∀ tag ∈ scope.tags.getD [], TagList.validTag tag = true

/-- A resource is opened as the setters leave it, or refused. -/
theorem openResource_ends {scope : Scope} (fits : scope.Fits) (compName : Option String)
    (node : Node) :
    Outcome.Ends IsMessage (openResource compare signedChar baseDerivation scope compName node)
      fun opened => Opened signedChar opened.1 ∧
        ∀ tag ∈ opened.2.getD [], TagList.validTag tag = true := by
  rw [openResource]
  refine (currentTags_ends fits.tags _).bind fun tags valid => ?_
  dsimp only
  have based : TypedResource.Formed signedChar (addDerivationString
      (addContext compare signedChar TypedResource.new scope.context).1 baseDerivation).1 :=
    (TypedResource.Formed.new.addContext _).addDerivationString _
  split
  case isTrue => exact .inl ⟨_, rfl, _, rfl⟩
  case isFalse =>
    split
    case isTrue => exact .inl ⟨_, rfl, _, rfl⟩
    case isFalse =>
      refine (resourceName_ends fits.templates valid _).bind fun named _ => ?_
      have gathers := @gatherResourceAttributes_gathers compare signedChar compName node
      split
      case h_1 => exact .inl ⟨_, rfl, _, rfl⟩
      case h_2 => exact .inl ⟨_, rfl, _, rfl⟩
      case h_3 _ name given _ =>
        refine .pure ⟨⟨(gathers _).formed { based with }, ?_⟩, valid⟩
        rw [(gathers _).name]
        dsimp only
        rw [given]
        exact (Option.filter_eq_some_iff.mp given).2

end Opened

/-! ## Two ways to keep resources -/

section Agreement

variable {compare signedChar ctxlist baseDerivation} {κ' : Type} {target} {target' : Target κ'}
  {belong : κ → κ' → Prop} {s : Reading κ} {t : Reading κ'}

/-- A resource which goes into a component: it is active on this host. -/
structure Stored (signedChar : Bool) (ctxlist : LCFGContextList) (res : TypedResource) : Prop
    extends Opened signedChar res where
  evaluated : res.priority = TypedResource.contextPriority signedChar ctxlist res.context
  active : isActive res = true

/-- The resources can be kept in one way or in the other. -/
structure Alike (signedChar : Bool) (ctxlist : LCFGContextList) (target : Target κ)
    (target' : Target κ') (belong : κ → κ' → Prop) : Prop where
  name : ∀ s t, belong s t → target'.name t = target.name s
  merge : ∀ s t res, belong s t → Stored signedChar ctxlist res →
    Outcome.Agree (fun _ => True) (fun a b => belong a.1 b.1 ∧ b.2 = a.2) (target.merge s res)
      (target'.merge t res)

/-- The same resource is read into components which belong together. -/
structure Together (signedChar : Bool) (belong : κ → κ' → Prop) (s : Reading κ) (t : Reading κ') :
    Prop where
  comp : belong s.comp t.comp
  res : t.res = s.res
  childTags : t.childTags = s.childTags
  opened : Opened signedChar s.res
  valid : ∀ tag ∈ s.childTags, TagList.validTag tag = true

theorem Opened.setValue {res : TypedResource} (opened : Opened signedChar res)
    (newValue : Option String) : Opened signedChar (TypedResource.setValue res newValue).1 :=
  opened.of_frame (opened.toFormed.setValue newValue) (TypedResource.setValue_frame res newValue).name

theorem setText_ends {res : TypedResource} (opened : Opened signedChar res)
    (compName : Option String) (nodevalue : String) :
    Outcome.Ends IsMessage (setText compName res nodevalue) (Opened signedChar) := by
  have set (value : Option String) : Outcome.Ends IsMessage
      (match TypedResource.setValue res value with
        | (res, true) => (.ok res : Except Failure TypedResource)
        | (res, false) => .error (.message (buildMessage (some res) compName
            ("Invalid value '" ++ nodevalue ++ "'")))) (Opened signedChar) := by
    have kept := opened.setValue value
    split
    case h_1 done =>
      rw [done] at kept
      exact .pure kept
    case h_2 => exact .inl ⟨_, rfl, _, rfl⟩
  rw [setText]
  dsimp only
  split
  case isTrue => exact set _
  case isFalse =>
    split
    case isTrue => exact set _
    case isFalse => exact .pure opened

theorem contentLeaf_agree (together : Together signedChar belong s t) (compName : Option String)
    (node : Node) (type : LeafType) :
    Outcome.Agree IsMessage (Together signedChar belong) (contentLeaf compName node type s)
      (contentLeaf compName node type t) := by
  rw [contentLeaf, contentLeaf, together.res]
  split
  case isTrue =>
    apply (setText_ends together.opened compName node.value).agree.map
    rintro res res' ⟨rfl, opened⟩
    exact ⟨together.comp, rfl, together.childTags, opened, together.valid⟩
  case isFalse => exact .stop ⟨_, rfl⟩

theorem addChildTag_agree (together : Together signedChar belong s t) {comp : κ} {comp' : κ'}
    (belongs : belong comp comp') (tag : Option String) :
    Outcome.Agree IsMessage (Together signedChar belong) (addChildTag s comp tag)
      (addChildTag t comp' tag) := by
  cases tag with
  | none =>
    exact .pure ⟨belongs, together.res, together.childTags, together.opened, together.valid⟩
  | some tag =>
    rw [addChildTag, addChildTag, together.childTags]
    apply (@appendTag_ends (some s.childTags) together.valid tag).agree.map
    rintro tags tags' ⟨rfl, valid⟩
    exact ⟨belongs, together.res, rfl, together.opened, valid⟩

theorem closeResource_agree (alike : Alike signedChar ctxlist target target' belong)
    (together : Together signedChar belong s t) (tagname : Option String) :
    Outcome.Agree IsMessage (fun a b => belong a.1 b.1 ∧ b.2 = a.2)
      (closeResource signedChar target ctxlist s tagname)
      (closeResource signedChar target' ctxlist t tagname) := by
  have listed : Opened signedChar
      (if s.childTags = [] then (s.res, true) else TypedResource.setValue s.res (some
        (String.ofList ([' '].intercalate (s.childTags.map String.toList))))).1 := by
    split
    case isTrue => exact together.opened
    case isFalse => exact together.opened.setValue _
  rw [closeResource, closeResource, together.res, together.childTags, alike.name _ _ together.comp]
  generalize (if s.childTags = [] then (s.res, true) else TypedResource.setValue s.res (some
    (String.ofList ([' '].intercalate (s.childTags.map String.toList))))) = attempt at listed
  obtain ⟨res, ok⟩ := attempt
  dsimp only at listed ⊢
  rw [listed.toFormed.evalPriority ctxlist]
  cases ok with
  | false => exact .stop ⟨_, rfl⟩
  | true =>
    rw [if_neg (by simp)]
    dsimp only
    rw [if_neg (by simp)]
    split
    case isTrue active =>
      have stored : Stored signedChar ctxlist
          { res with priority := TypedResource.contextPriority signedChar ctxlist res.context } :=
        ⟨⟨{ listed.toFormed with }, listed.named⟩, rfl, active⟩
      obtain ⟨e, failed, failed', -⟩ | ⟨a, b, done, done', belongs, same⟩ :=
        alike.merge _ _ _ together.comp stored
      · rw [failed, failed']
        exact .stop ⟨_, rfl⟩
      · obtain ⟨comp', change'⟩ := b
        obtain rfl : change' = a.2 := same
        rw [done, done']
        exact .pure ⟨belongs, rfl⟩
    case isFalse => exact .pure ⟨together.comp, rfl⟩

/-- The same has been read, up to the same node. -/
structure Same (belong : κ → κ' → Prop) (rest : List Node) (p : Processed κ) (p' : Processed κ') :
    Prop where
  comp : belong p.comp p'.comp
  tag : p'.tag = p.tag
  reader : p'.reader = p.reader
  shorter : p.reader.length ≤ rest.length + 1

/-- Elements with less than `bound` nodes behind them are read in the same way. -/
def Processes (belong : κ → κ' → Prop) (bound : Nat)
    (process : Scope → κ → Node → List Node → Except Failure (Processed κ))
    (process' : Scope → κ' → Node → List Node → Except Failure (Processed κ')) : Prop :=
  ∀ scope s t node rest, scope.Fits → belong s t → rest.length < bound →
    Outcome.Agree IsMessage (Same belong rest) (process scope s node rest)
      (process' scope t node rest)

section Rounds

variable {bound : Nat} {process : Scope → κ → Node → List Node → Except Failure (Processed κ)}
  {process' : Scope → κ' → Node → List Node → Except Failure (Processed κ')}

/-- A node which has been passed. -/
theorem passed_agree {σ τ : Type} {together : σ → τ → Prop} {s : σ} {t : τ} (both : together s t)
    (node : Node) (rest : List Node) (done : Bool) :
    Outcome.Agree IsMessage (fun r r' => together r.state r'.state ∧
        (r'.reader, r'.done) = (r.reader, r.done) ∧ r.reader.length ≤ rest.length + 1)
      (.ok ({ state := s, reader := node :: rest, done } : Round σ))
      (.ok ({ state := t, reader := node :: rest, done } : Round τ)) :=
  .pure ⟨both, rfl, Nat.le_of_eq List.length_cons⟩

theorem recordRound_agree (processes : Processes belong bound process process') {scope : Scope}
    (fits : scope.Fits) (top : Node) {s : κ} {t : κ'} (belongs : belong s t) (node : Node)
    {rest : List Node} (few : rest.length < bound) :
    Outcome.Agree IsMessage (fun r r' => belong r.state r'.state ∧
        (r'.reader, r'.done) = (r.reader, r.done) ∧ r.reader.length ≤ rest.length + 1)
      (recordRound (process scope) top s node rest)
      (recordRound (process' scope) top t node rest) := by
  rw [recordRound, recordRound]
  split
  case isTrue =>
    split
    case isTrue =>
      apply (processes scope s t node rest fits belongs few).map
      intro p p' same
      exact ⟨same.comp, by rw [same.reader], same.shorter⟩
    case isFalse =>
      split
      case isTrue => exact passed_agree belongs node rest false
      case isFalse => exact .stop ⟨_, rfl⟩
  case isFalse =>
    split
    case isTrue =>
      split
      case isTrue => exact passed_agree belongs node rest true
      case isFalse => exact .stop ⟨_, rfl⟩
    case isFalse => exact .stop ⟨_, rfl⟩

theorem processRecord_agree (processes : Processes belong bound process process') {scope : Scope}
    (fits : scope.Fits) {s : κ} {t : κ'} (belongs : belong s t) (node : Node) {rest : List Node}
    (few : rest.length < bound) :
    Outcome.Agree IsMessage (Same belong rest) (processRecord process scope s node rest)
      (processRecord process' scope t node rest) := by
  rw [processRecord, processRecord]
  split
  case h_1 => exact .stop ⟨_, rfl⟩
  case h_2 tagname _ =>
    apply (appendTag_ends fits.tags tagname).agree.bind
    rintro tags tags' ⟨rfl, valid⟩
    have below : Scope.Fits { scope with tags := some tags' } := ⟨fits.templates, valid⟩
    have rounds (s : κ) (t : κ') (node' : Node) (rest' : List Node) (belongs : belong s t)
        (shorter : rest'.length < rest.length) :=
      recordRound_agree processes below node belongs node' (Nat.lt_trans shorter few)
    apply (loop_agree rounds belongs (Nat.le_succ _)).bind
    rintro r r' ⟨belongs, reader, le⟩
    exact .pure ⟨belongs, rfl, reader, Nat.le_succ_of_le le⟩

theorem processChild_agree (processes : Processes belong bound process process') {scope : Scope}
    (fits : scope.Fits) {s : κ} {t : κ'} (belongs : belong s t) (node : Node) {rest : List Node}
    (few : rest.length < bound) :
    Outcome.Agree IsMessage (Same belong rest) (processChild process scope s node rest)
      (processChild process' scope t node rest) := by
  rw [processChild, processChild]
  split
  case isTrue => exact processRecord_agree processes fits belongs node few
  case isFalse => exact processes scope s t node rest fits belongs few

theorem resourceRound_agree (alike : Alike signedChar ctxlist target target' belong)
    (processes : Processes belong bound process process') {tags : Option LCFGTagList}
    (valid : ∀ tag ∈ tags.getD [], TagList.validTag tag = true) (top : Node)
    (together : Together signedChar belong s t) (node : Node) {rest : List Node}
    (few : rest.length < bound) :
    Outcome.Agree IsMessage (fun r r' => Together signedChar belong r.state r'.state ∧
        (r'.reader, r'.done) = (r.reader, r.done) ∧ r.reader.length ≤ rest.length + 1)
      (resourceRound target process top tags s node rest)
      (resourceRound target' process' top tags t node rest) := by
  rw [resourceRound, resourceRound]
  split
  case isTrue =>
    split
    case h_1 type _ =>
      rw [alike.name _ _ together.comp]
      apply (contentLeaf_agree together (target.name s.comp) node type).map
      intro s t together
      exact ⟨together, rfl, Nat.le_of_eq List.length_cons⟩
    case h_2 =>
      have below : Scope.Fits ⟨s.res.template, tags, s.res.context⟩ :=
        ⟨together.opened.template, valid⟩
      rw [together.res]
      apply (processChild_agree processes below together.comp node few).bind
      intro p p' same
      rw [same.tag]
      apply (addChildTag_agree together same.comp p.tag).bind
      intro s t together
      exact .pure ⟨together, by rw [same.reader], same.shorter⟩
    case h_3 => exact .stop ⟨_, rfl⟩
  case isFalse =>
    split
    case isTrue =>
      split
      case isTrue => exact passed_agree together node rest true
      case isFalse => exact .stop ⟨_, rfl⟩
    case isFalse => exact .stop ⟨_, rfl⟩

end Rounds

/-- A resource is read in the same way, or refused for the same reason, however the resources are
kept: on any nodes, and without any access out of bounds. -/
theorem processResource_agree (alike : Alike signedChar ctxlist target target' belong) (n : Nat) :
    Processes belong n (processResource compare signedChar target ctxlist baseDerivation n)
      (processResource compare signedChar target' ctxlist baseDerivation n) := by
  induction n with
  | zero =>
    intro scope s t node rest fits belongs few
    exact absurd few (Nat.not_lt_zero _)
  | succ n ih =>
    intro scope s t node rest fits belongs few
    rw [processResource, processResource, alike.name _ _ belongs]
    split
    case isTrue => exact .pure ⟨belongs, rfl, rfl, Nat.le_of_eq List.length_cons⟩
    case isFalse =>
      split
      case isTrue => exact .stop ⟨_, rfl⟩
      case isFalse =>
        apply (openResource_ends fits (target.name s) node).agree.bind
        rintro ⟨res, tags⟩ ⟨res', tags'⟩ ⟨same, opened, valid⟩
        cases same
        have start : Together signedChar belong { comp := s, res } { comp := t, res } :=
          ⟨belongs, rfl, rfl, opened, fun tag none_ => absurd none_ List.not_mem_nil⟩
        -- the elements below have fewer nodes behind them
        have rounds (s : Reading κ) (t : Reading κ') (node' : Node) (rest' : List Node)
            (together : Together signedChar belong s t) (shorter : rest'.length < rest.length) :=
          resourceRound_agree alike ih valid node together node'
            (Nat.lt_of_lt_of_le shorter (Nat.le_of_lt_succ few))
        apply (loop_agree rounds start (Nat.le_succ _)).bind
        rintro ⟨s', reader⟩ ⟨t', reader'⟩ ⟨together, rfl, le⟩
        apply (closeResource_agree alike together (getLcfgtagname node)).bind
        rintro ⟨comp, tag⟩ ⟨comp', tag'⟩ ⟨belongs', rfl⟩
        exact .pure ⟨belongs', rfl, rfl, Nat.le_succ_of_le le⟩

end Agreement

end XmlProfile

end Lcfg
