import LcfgCore.Components.Environment
import LcfgCore.Xml.Component

/-!
# Reading the components of a profile

The components of a profile stand below one element. Those which are wanted are put into a set,
where a component takes the place of an earlier one of its name (`xml/common.c`,
`xml/components.c`).

## Main results

`processComponents_tree`: the components are read from the nodes of their element as its tree says.
`processComponents_ends`: on any nodes they are read or refused, and every resource in the set is
active and as the setters leave it.
-/
namespace Lcfg

namespace XmlProfile

open XmlReader
open XmlReader.Tree (behind nodesAll)
open CompSet (LoadedSet)
open PlainComponent (active)
open TypedResource (Shown kept)

/-! ## Moving the reader -/

/-- `lcfgxml_correct_location` -/
def correctLocation (reader : List Node) (expectedNodename : String) : Bool :=
  reader.head?.any fun node => node.name == expectedNodename

/-- `lcfgxml_moveto_node`: the next node with a name. -/
def movetoNode (reader : List Node) (targetNodename : String) : Option (List Node) :=
  match reader.tail.dropWhile fun node => node.name != targetNodename with
  | [] => none
  | found => some found

/-! ## The components -/

/-- `LCFGXML_COMPS_PARENT_NODE` -/
def compsParentNode : String := "components"

/-- A set of components under construction, as far as the reader looks at it. -/
structure SetTarget (κ σ : Type) where
  target : Target κ
  -- a new component of a name
  start : String → κ
  insert : σ → κ → Option σ

/-- A set with one more component, whose place is behind the others. -/
def withMore (s : LoadedSet) (l : Loading) : LoadedSet := { s with comps := s.comps ++ [l] }

/-- `lcfgcompset_insert_component` for components which have just been read. -/
def SetTarget.components (hash : String → Nat) : SetTarget Loading LoadedSet where
  target := Target.component hash
  start := Loading.newPrioritised
  insert s comp :=
    match CompSet.insertComponent hash (withMore s comp).comp s.set (some s.comps.length) with
    | (_, .error) => none
    | (set, _) => some { withMore s comp with set }

variable {κ σ : Type} (compare : String → String → Int) (signedChar : Bool)
  (sets : SetTarget κ σ) (ctxlist : LCFGContextList) (baseContext baseDerivation : Option String)
  (compsWanted : Option LCFGTagList)

def unexpectedBelow (node : Node) : Failure :=
  .message ("Unexpected element '" ++ node.name ++ "' of type " ++ toString node.type.number ++
    " at line " ++ toString node.line ++ " whilst processing components.")

def unexpectedEndBelow (node : Node) : Failure :=
  .message ("Unexpected end element '" ++ node.name ++ "' at line " ++ toString node.line ++
    " whilst processing components.")

def invalidComponent (node : Node) : Failure :=
  .message ("Invalid component name '" ++ node.name ++ "' found at line " ++ toString node.line ++
    " whilst processing components.")

/-- The component with meta-data is kept in any case. -/
def isWanted (compName : String) : Bool :=
  compsWanted.all fun wanted => compName == "profile" || TagList.contains wanted compName

/-- A component which has been read goes into the set if it is wanted. -/
def keepComponent (compName : String) (s : σ) (comp : Option κ) : Except Failure σ :=
  match comp with
  | none => .ok s
  | some comp =>
    if isWanted compsWanted compName then
      match sets.insert s comp with
      | none =>
        .error (.message
          ("Failed to add component '" ++ compName ++ "' to the set of components"))
      | some s => .ok s
    else .ok s

/-- One node of `lcfgxml_process_components`, with the name of the last component. -/
def componentsRound (top : Node) (state : σ × Option String) (node : Node) (rest : List Node) :
    Except Failure (Round (σ × Option String)) :=
  match node.type with
  | .element =>
    if node.depth = top.depth + 1 then
      if Resource.validName (some node.name) then do
        let (comp, reader) ← processComponent compare signedChar sets.target ctxlist baseContext
          baseDerivation node.name (sets.start node.name) node rest
        let s ← keepComponent sets compsWanted node.name state.1 comp
        .ok { state := (s, some node.name), reader }
      else .error (invalidComponent node)
    else .error (unexpectedBelow node)
  | .endElement =>
    if node.depth = top.depth ∧ node.name = compsParentNode then
      .ok { state, reader := node :: rest, done := true }
    else if state.2 = some node.name ∧ node.depth = top.depth + 1 then
      .ok { state, reader := node :: rest }
    else .error (unexpectedEndBelow node)
  | .leaf _ => .ok { state, reader := node :: rest }

/-- The components are read into a set; there is none for an empty element. -/
def readComponents (start : σ) (reader : List Node) :
    Except Failure (Option σ × List Node) :=
  let reader :=
    if correctLocation reader compsParentNode then some reader
    else movetoNode reader compsParentNode
  match reader with
  | some (node :: rest) =>
    if node.emptyElement then .ok (none, node :: rest)
    else
      (loop .stuck (componentsRound compare signedChar sets ctxlist baseContext baseDerivation
        compsWanted node) (rest.length + 1) (start, none) rest).map fun r => (some r.1.1, r.2)
  | _ => .error (.message "Failed to find top-level components element.")

/-- `lcfgxml_process_components` -/
def processComponents (hash : String → Nat) (reader : List Node) :
    Except Failure (Option LoadedSet × List Node) :=
  readComponents compare signedChar (SetTarget.components hash) ctxlist baseContext baseDerivation
    compsWanted LoadedSet.new reader

/-! ## Two sets -/

section Agreement

variable {compare signedChar sets ctxlist baseContext baseDerivation compsWanted} {κ' σ' : Type}
  {sets' : SetTarget κ' σ'} {belong : κ → κ' → Prop} {belongSet : σ → σ' → Prop}

/-- The components can be put into one set or into the other. -/
structure SetAlike (signedChar : Bool) (ctxlist : LCFGContextList) (sets : SetTarget κ σ)
    (sets' : SetTarget κ' σ') (belong : κ → κ' → Prop) (belongSet : σ → σ' → Prop) : Prop where
  alike : Alike signedChar ctxlist sets.target sets'.target belong
  start : ∀ compName, Resource.validName (some compName) = true →
    belong (sets.start compName) (sets'.start compName)
  insert : ∀ s s' comp comp', belongSet s s' → belong comp comp' →
    Option.Rel belongSet (sets.insert s comp) (sets'.insert s' comp')

theorem keepComponent_agree
    (alike : SetAlike signedChar ctxlist sets sets' belong belongSet) (compName : String) {s : σ}
    {s' : σ'} (belongs : belongSet s s') {comp : Option κ} {comp' : Option κ'}
    (related : Option.Rel belong comp comp') :
    Outcome.Agree IsMessage belongSet (keepComponent sets compsWanted compName s comp)
      (keepComponent sets' compsWanted compName s' comp') := by
  cases related with
  | none => exact .pure belongs
  | @some comp comp' both =>
    rw [keepComponent, keepComponent]
    split
    case isTrue =>
      have inserted := alike.insert s s' comp comp' belongs both
      generalize sets.insert s comp = r at inserted
      generalize sets'.insert s' comp' = r' at inserted
      cases inserted with
      | none => exact .stop ⟨_, rfl⟩
      | some belongs => exact .pure belongs
    case isFalse => exact .pure belongs

theorem componentsRound_agree
    (alike : SetAlike signedChar ctxlist sets sets' belong belongSet) (top : Node)
    {s : σ × Option String} {s' : σ' × Option String}
    (belongs : belongSet s.1 s'.1 ∧ s'.2 = s.2) (node : Node) (rest : List Node) :
    Outcome.Agree IsMessage (fun r r' => (belongSet r.state.1 r'.state.1 ∧ r'.state.2 = r.state.2) ∧
        (r'.reader, r'.done) = (r.reader, r.done) ∧ r.reader.length ≤ rest.length + 1)
      (componentsRound compare signedChar sets ctxlist baseContext baseDerivation compsWanted top s
        node rest)
      (componentsRound compare signedChar sets' ctxlist baseContext baseDerivation compsWanted top
        s' node rest) := by
  rw [componentsRound, componentsRound]
  split
  case h_1 =>
    split
    case isTrue =>
      split
      case isTrue valid =>
        apply (processComponent_agree alike.alike (alike.start node.name valid) node rest).bind
        rintro ⟨comp, reader⟩ ⟨comp', reader'⟩ ⟨related, rfl, le⟩
        apply (keepComponent_agree alike node.name belongs.1 related).bind
        intro s s' belongs
        exact .pure ⟨⟨belongs, rfl⟩, rfl, le⟩
      case isFalse => exact .stop ⟨_, rfl⟩
    case isFalse => exact .stop ⟨_, rfl⟩
  case h_2 =>
    split
    case isTrue => exact .pure ⟨belongs, rfl, Nat.le_of_eq List.length_cons⟩
    case isFalse =>
      rw [belongs.2]
      split
      case isTrue => exact .pure ⟨belongs, rfl, Nat.le_of_eq List.length_cons⟩
      case isFalse => exact .stop ⟨_, rfl⟩
  case h_3 => exact .pure ⟨belongs, rfl, Nat.le_of_eq List.length_cons⟩

theorem readComponents_agree
    (alike : SetAlike signedChar ctxlist sets sets' belong belongSet) {start : σ} {start' : σ'}
    (belongs : belongSet start start') (reader : List Node) :
    Outcome.Agree IsMessage (fun r r' => Option.Rel belongSet r.1 r'.1 ∧ r'.2 = r.2)
      (readComponents compare signedChar sets ctxlist baseContext baseDerivation compsWanted start
        reader)
      (readComponents compare signedChar sets' ctxlist baseContext baseDerivation compsWanted start'
        reader) := by
  rw [readComponents, readComponents]
  split
  case h_1 node rest _ =>
    split
    case isTrue => exact .pure ⟨.none, rfl⟩
    case isFalse =>
      have rounds (s : σ × Option String) (s' : σ' × Option String) (node' : Node)
          (rest' : List Node) (belongs : belongSet s.1 s'.1 ∧ s'.2 = s.2)
          (_ : rest'.length < rest.length) :=
        @componentsRound_agree _ _ compare signedChar sets ctxlist baseContext baseDerivation
          compsWanted _ _ sets' belong belongSet alike node s s' belongs node' rest'
      apply (loop_agree rounds ⟨belongs, rfl⟩ (Nat.le_succ _)).map
      rintro ⟨s, reader⟩ ⟨s', reader'⟩ ⟨belongs, rfl, -⟩
      exact ⟨.some belongs.1, rfl⟩
  case h_2 => exact .stop ⟨_, rfl⟩

end Agreement

/-! ## What is put into a set -/

/-- The components which have been put into a set, one after another; as many names as there are
buckets in a new set. -/
def SetTarget.offers : SetTarget Offers (List Offers) where
  target := Target.offers
  start compName := { compName }
  insert made o :=
    if ((made ++ [o]).map Offers.compName).dedup.length ≤ CompSet.defaultSize then some (made ++ [o])
    else none

/-- The last component of a name. -/
def lastNamed (made : List Offers) (name : String) : Option Offers :=
  made.reverse.find? fun o => o.compName = name

section Sets

open CompSet (entry)

variable {hash : String → Nat} {signedChar : Bool} {ctxlist : LCFGContextList} {s : LoadedSet}
  {made : List Offers}

/-- A set has the last component of each name. -/
def Collects (hash : String → Nat) (signedChar : Bool) (ctxlist : LCFGContextList) (s : LoadedSet)
    (made : List Offers) : Prop :=
  LoadedSet.Loads hash (fun name l =>
    ∃ o, lastNamed made name = some o ∧ Holding hash signedChar ctxlist l o) s
    (made.map Offers.compName)

theorem lastNamed_append (made : List Offers) (o : Offers) (name : String) :
    lastNamed (made ++ [o]) name = if o.compName = name then some o else lastNamed made name := by
  rw [lastNamed, List.reverse_append, List.reverse_singleton, List.singleton_append, List.find?_cons]
  by_cases own : o.compName = name
  · simp [own]
  · simp [own, lastNamed]

theorem Collects.new : Collects hash signedChar ctxlist LoadedSet.new [] := LoadedSet.new_loads

/-- An insertion which is accepted updates the set for the name of the component. -/
theorem Collects.insert_accepted (collects : Collects hash signedChar ctxlist s made) {l : Loading}
    {o : Offers} (holding : Holding hash signedChar ctxlist l o) :
    let inserted := CompSet.insertComponent hash (withMore s l).comp s.set (some s.comps.length)
    CompSet.Sound hash (withMore s l).comp inserted.1 ∧ (inserted.2 ≠ .error →
      entry (withMore s l).comp inserted.1 =
        Function.update (entry s.comp s.set) o.compName (some s.comps.length)) := by
  intro inserted
  have some_ : o.compName ≠ "" := TypedResource.validName_ne holding.valid
  have here : (withMore s l).comp s.comps.length =
      { Component.new with name := some o.compName } := by
    rw [withMore, LoadedSet.comp, List.getElem?_concat_length, Option.bind_some, holding.holds.named]
  have nameHere : CompSet.nameOf (withMore s l).comp s.comps.length = o.compName := by
    rw [CompSet.nameOf, here, Option.getD_some]
  have valid : Component.isValid ((withMore s l).comp s.comps.length) = true := by
    simpa [here, Component.isValid, isEmpty] using some_
  obtain ⟨sound, same⟩ := @CompSet.Sound.congr_stored hash s.comp (withMore s l).comp s.set
    collects.sound fun a member => by rw [withMore, collects.comp_eq [l] member]
  refine ⟨(CompSet.insert_spec sound s.comps.length valid).1, fun ok => ?_⟩
  rw [CompSet.insert_updates sound s.comps.length valid ok, same, nameHere]

/-- Step lemma: a component is put into the set, unless there is no bucket for it. -/
theorem Collects.insert (collects : Collects hash signedChar ctxlist s made) {l : Loading}
    {o : Offers} (holding : Holding hash signedChar ctxlist l o) :
    Option.Rel (Collects hash signedChar ctxlist) ((SetTarget.components hash).insert s l)
      (SetTarget.offers.insert made o) := by
  have some_ : o.compName ≠ "" := TypedResource.validName_ne holding.valid
  obtain ⟨sound, updates⟩ := collects.insert_accepted holding
  have names : (made ++ [o]).map Offers.compName = made.map Offers.compName ++ [o.compName] := by
    simp
  rw [SetTarget.components, SetTarget.offers]
  dsimp only
  rw [names]
  by_cases fits : (made.map Offers.compName ++ [o.compName]).dedup.length ≤ CompSet.defaultSize
  · rw [if_pos fits]
    -- nothing changes for the other names
    have others : LoadedSet.Loads hash (fun name l => name ≠ o.compName → ∃ o',
        lastNamed (made ++ [o]) name = some o' ∧ Holding hash signedChar ctxlist l o') s
          (made.map Offers.compName) :=
      { collects with
        expected := fun name a found => by
          obtain ⟨l', there, o', last, holding'⟩ := collects.expected name a found
          refine ⟨l', there, fun other => ⟨o', ?_, holding'⟩⟩
          rw [lastNamed_append, if_neg (Ne.symm other), last] }
    have fits' : (o.compName :: made.map Offers.compName).dedup.length ≤ CompSet.defaultSize := by
      refine Nat.le_trans (Nat.le_of_eq ?_) fits
      exact (List.perm_append_singleton o.compName _).symm.dedup.length_eq
    obtain ⟨accepted, loads⟩ := others.insert holding.holds.named some_ (fun other => absurd rfl other)
      fits'
    change LoadedSet.Loads hash _ { withMore s l with set := (CompSet.insertComponent hash
      (withMore s l).comp s.set (some s.comps.length)).1 } _ at loads
    change (CompSet.insertComponent hash (withMore s l).comp s.set (some s.comps.length)).2 = _ ∨
      (CompSet.insertComponent hash (withMore s l).comp s.set (some s.comps.length)).2 = _ at accepted
    generalize CompSet.insertComponent hash (withMore s l).comp s.set (some s.comps.length) =
      inserted at accepted loads updates sound
    obtain ⟨set, change⟩ := inserted
    dsimp only at accepted loads updates sound
    have collects' : Collects hash signedChar ctxlist { withMore s l with set } (made ++ [o]) :=
      { loads with
        found := fun name => by
          rw [loads.found, names]
          simp [or_comm]
        expected := fun name a found => by
          by_cases own : name = o.compName
          · have updated := updates (by rcases accepted with rfl | rfl <;> simp)
            change entry (withMore s l).comp set name = some a at found
            rw [updated, own, Function.update_self, Option.some_inj] at found
            subst found own
            exact ⟨l, List.getElem?_concat_length, o, by rw [lastNamed_append, if_pos rfl], holding⟩
          · obtain ⟨l', there, expected⟩ := loads.expected name a found
            exact ⟨l', there, expected own⟩ }
    rcases accepted with rfl | rfl
    · exact .some collects'
    · exact .some collects'
  · rw [if_neg fits]
    have refused : (CompSet.insertComponent hash (withMore s l).comp s.set
        (some s.comps.length)).2 = .error := by
      by_contra ok
      have updated := updates ok
      -- the set would have more names than buckets
      have counted := sound.chained.occupied_eq_length_dedup
        (made.map Offers.compName ++ [o.compName]) fun name => by
          change (entry (withMore s l).comp _ name).isSome ↔ _
          rw [updated]
          by_cases own : name = o.compName
          · simp [own]
          · rw [Function.update_of_ne own, collects.found]
            simp [own]
      rw [← counted, ← sound.entries_eq] at fits
      exact fits sound.entries_le
    generalize CompSet.insertComponent hash (withMore s l).comp s.set (some s.comps.length) =
      inserted at refused
    obtain ⟨set, change⟩ := inserted
    dsimp only at refused
    rw [refused]
    exact .none

/-- A set and what has been put into it cannot be told apart by the reader. -/
theorem sets_alike : SetAlike signedChar ctxlist (SetTarget.components hash) SetTarget.offers
    (Holding hash signedChar ctxlist) (Collects hash signedChar ctxlist) where
  alike := component_alike
  start _ valid := newPrioritised_holding valid
  insert _ _ _ _ collects holding := collects.insert holding

/-- The components which are found in a set. -/
theorem Collects.findComponent (collects : Collects hash signedChar ctxlist s made)
    (compName : String) :
    Option.Rel (Holding hash signedChar ctxlist) (s.findComponent hash compName)
      (lastNamed made compName) := by
  rw [LoadedSet.findComponent, collects.sound.findComponent_eq]
  cases found : entry s.comp s.set compName with
  | none =>
    have unknown : lastNamed made compName = none := by
      rw [lastNamed, List.find?_eq_none]
      intro o inside same
      have known := (collects.found compName).mpr (List.mem_map.mpr
        ⟨o, List.mem_reverse.mp inside, of_decide_eq_true same⟩)
      rw [found] at known
      cases known
    rw [unknown]
    exact .none
  | some a =>
    obtain ⟨l, there, o, last, holding⟩ := collects.expected compName a found
    rw [Option.bind_some, there, last]
    exact .some holding

/-- What a set shows: for each name the last component, and in it the best resources. -/
theorem Collects.shows (collects : Collects hash signedChar ctxlist s made) (compName : String) :
    Option.Rel (fun l o => o.compName = compName ∧
      ∀ name, active l.res (some l.comp) name = kept o.offers name ∧
        Shown o.offers name (kept o.offers name))
      (s.findComponent hash compName) (lastNamed made compName) := by
  have found := collects.findComponent compName
  generalize s.findComponent hash compName = there at found
  cases last : lastNamed made compName with
  | none =>
    rw [last] at found
    cases found
    exact .none
  | some o =>
    rw [last] at found
    cases found with
    | some holding =>
      have own : o.compName = compName := by
        simpa using List.find?_some last
      exact .some ⟨own, fun name => ⟨holding.holds.shows name, holding.undisputed.best name⟩⟩

end Sets

/-- Whatever the nodes are, the components are read, or refused with a message. The resources in
the set are active, have the priorities of their contexts, and are as the setters leave them. -/
theorem processComponents_ends (hash : String → Nat) (compare : String → String → Int)
    (signedChar : Bool) (ctxlist : LCFGContextList) (baseContext baseDerivation : Option String)
    (compsWanted : Option LCFGTagList) (reader : List Node) :
    Outcome.Ends IsMessage (processComponents compare signedChar ctxlist baseContext baseDerivation
        compsWanted hash reader) fun r =>
      ∀ s ∈ r.1, CompSet.Sound hash s.comp s.set ∧
        ∀ compName l, s.findComponent hash compName = some l →
          Resource.validName (some compName) = true ∧ l.comp.name = some compName ∧
            ∀ name res, active l.res (some l.comp) name = some res →
              res.name = some name ∧ Stored signedChar ctxlist res := by
  obtain ⟨e, failed, -, kind⟩ | ⟨r, r', done, -, related, -⟩ :=
    @readComponents_agree _ _ compare signedChar _ ctxlist baseContext baseDerivation compsWanted _ _
      _ _ _ (@sets_alike hash signedChar ctxlist) _ _ Collects.new reader
  · exact .inl ⟨e, failed, kind⟩
  · refine .inr ⟨r, done, fun s given => ?_⟩
    rw [Option.mem_def.mp given] at related
    cases put : r'.1 with
    | none =>
      rw [put] at related
      cases related
    | some made =>
      rw [put, Option.rel_some_some] at related
      refine ⟨related.sound, fun compName l found => ?_⟩
      have there := related.findComponent compName
      rw [found] at there
      cases last : lastNamed made compName with
      | none =>
        rw [last] at there
        cases there
      | some o =>
        rw [last, Option.rel_some_some] at there
        have own : o.compName = compName := by
          simpa using List.find?_some last
        refine ⟨own ▸ there.valid, own ▸ there.holds.named, fun name res shown => ?_⟩
        rw [there.holds.shows] at shown
        exact ⟨there.holds.name_eq shown, there.stored res (there.best shown).2⟩

/-! ## The tree of a profile -/

/-- What a tree below the element of all components does with a set. -/
def memberOf (s : σ) : Tree → Except Failure σ
  | .leaf .. => .ok s
  | .closed name attributes line =>
    if Resource.validName (some name) then .ok s
    else .error (invalidComponent (Tree.first 0 (.closed name attributes line)))
  | .element name attributes children line endLine =>
    if Resource.validName (some name) then do
      let comp ← children.foldlM (partOf compare signedChar sets.target ctxlist baseDerivation
        (unexpectedIn name) { context := baseContext }) (sets.start name)
      keepComponent sets compsWanted name s (some comp)
    else .error (invalidComponent (Tree.first 0 (.element name attributes children line endLine)))

/-- The components below an element, one after another. -/
def componentsOf (start : σ) (children : List Tree) : Except Failure σ :=
  children.foldlM (memberOf compare signedChar sets ctxlist baseContext baseDerivation compsWanted)
    start

section Trees

variable {compare signedChar sets ctxlist baseContext baseDerivation compsWanted}

/-- The name of the last component is kept along with the set. -/
def memberOfNamed (compare : String → String → Int) (signedChar : Bool) (sets : SetTarget κ σ)
    (ctxlist : LCFGContextList) (baseContext baseDerivation : Option String)
    (compsWanted : Option LCFGTagList) (s : σ × Option String) (tree : Tree) :
    Except Failure (σ × Option String) :=
  (memberOf compare signedChar sets ctxlist baseContext baseDerivation compsWanted s.1 tree).map
    fun next => (next, if tree.isLeaf then s.2 else some (tree.first 0).name)

theorem foldlM_memberOfNamed (children : List Tree) (s : σ × Option String) :
    (children.foldlM (memberOfNamed compare signedChar sets ctxlist baseContext baseDerivation
      compsWanted) s).map Prod.fst =
        componentsOf compare signedChar sets ctxlist baseContext baseDerivation compsWanted s.1
          children := by
  induction children generalizing s with
  | nil => rfl
  | cons child rest ih =>
    rw [componentsOf, List.foldlM_cons, List.foldlM_cons, memberOfNamed]
    cases memberOf compare signedChar sets ctxlist baseContext baseDerivation compsWanted s.1
      child with
    | error e => rfl
    | ok next => exact ih (next, _)

theorem componentsRound_nodes {s : σ × Option String} {child : Tree}
    (opened : recordsOpen child = true) (top : Node) (more : List Node) :
    componentsRound compare signedChar sets ctxlist baseContext baseDerivation compsWanted top s
        (child.first (top.depth + 1)) (behind (top.depth + 1) child ++ more) =
      (memberOfNamed compare signedChar sets ctxlist baseContext baseDerivation compsWanted s
        child).map fun s => { state := s, reader := child.last (top.depth + 1) :: more } := by
  cases child with
  | leaf type name value line => rfl
  | closed name attributes line =>
    have named : (Tree.first (top.depth + 1) (.closed name attributes line)).name = name := rfl
    rw [componentsRound, Tree.first_type rfl]
    dsimp only
    rw [if_pos (Tree.first_depth _ _), named, memberOfNamed, memberOf]
    split
    case isTrue => rfl
    case isFalse => rfl
  | element name attributes children line endLine =>
    have named : (Tree.first (top.depth + 1)
      (.element name attributes children line endLine)).name = name := rfl
    rw [recordsOpen, allOpen_iff] at opened
    rw [componentsRound, Tree.first_type rfl]
    dsimp only
    rw [if_pos (Tree.first_depth _ _), named, memberOfNamed, memberOf]
    split
    case isTrue valid =>
      rw [processComponent_nodes valid _ opened]
      cases children.foldlM (partOf compare signedChar sets.target ctxlist baseDerivation
        (unexpectedIn name) { context := baseContext }) (sets.start name) with
      | error e => rfl
      | ok comp =>
        simp only [Except.map, bind, Except.bind]
        cases keepComponent sets compsWanted name s.1 (some comp) with
        | error e => rfl
        | ok next => rfl
    case isFalse => rfl

theorem readComponents_nodes {before : List Node}
    (elsewhere : ∀ node ∈ before, node.name ≠ compsParentNode) (start : σ)
    {attributes : List (String × String)} {children : List Tree} {line endLine depth : Nat}
    (opened : ∀ child ∈ children, recordsOpen child = true) (more : List Node) :
    let tree := Tree.element compsParentNode attributes children line endLine
    readComponents compare signedChar sets ctxlist baseContext baseDerivation compsWanted start
        (before ++ (tree.nodes depth ++ more)) =
      (componentsOf compare signedChar sets ctxlist baseContext baseDerivation compsWanted start
        children).map fun s => (some s, tree.last depth :: more) := by
  intro tree
  have found : (if correctLocation (before ++ (tree.nodes depth ++ more)) compsParentNode then
        some (before ++ (tree.nodes depth ++ more))
      else movetoNode (before ++ (tree.nodes depth ++ more)) compsParentNode) =
        some (tree.first depth :: (behind depth tree ++ more)) := by
    cases before with
    | nil =>
      apply if_pos
      simp [correctLocation, tree, Tree.nodes, Tree.first]
    | cons node before =>
      have other := elsewhere node List.mem_cons_self
      have skipped : (before ++ (tree.nodes depth ++ more)).dropWhile
          (fun node => node.name != compsParentNode) = tree.nodes depth ++ more := by
        rw [List.dropWhile_append_of_pos fun node inside =>
          bne_iff_ne.mpr (elsewhere node (List.mem_cons_of_mem _ inside))]
        exact List.dropWhile_cons_of_neg (by simp [tree, Tree.first])
      rw [if_neg (by simpa [correctLocation] using other), movetoNode, List.cons_append,
        List.tail_cons, skipped]
      rfl
  rw [readComponents, found]
  dsimp only
  have walked := @loop_behind (σ × Option String) Failure .stuck
    (componentsRound compare signedChar sets ctxlist baseContext baseDerivation compsWanted
      (tree.first depth))
    _ depth ((behind depth tree ++ more).length + 1) compsParentNode attributes children line endLine
    (start, none) more
    (fun s child member more => componentsRound_nodes (opened child member) _ more)
    (fun s => by rw [componentsRound]; exact if_pos ⟨rfl, rfl⟩)
    (Nat.le_succ_of_le (by rw [List.length_append]; exact Nat.le_add_right _ _))
  rw [if_neg (by simp [tree, Tree.first]), walked, ← foldlM_memberOfNamed children (start, none)]
  cases children.foldlM (memberOfNamed compare signedChar sets ctxlist baseContext baseDerivation
    compsWanted) (start, none) with
  | error e => rfl
  | ok s => rfl

end Trees

/-- From the nodes of a document the components are read as the tree of their element says, up to
the end of this element. The set has the last component of each name, and a component shows for
each name the last one of the resources with the greatest priority. -/
theorem processComponents_tree (hash : String → Nat) (compare : String → String → Int)
    (signedChar : Bool) (ctxlist : LCFGContextList) (baseContext baseDerivation : Option String)
    (compsWanted : Option LCFGTagList) (before : List Node)
    (elsewhere : ∀ node ∈ before, node.name ≠ compsParentNode)
    (attributes : List (String × String)) (children : List Tree) (line endLine depth : Nat)
    (opened : allOpen children = true) (more : List Node) :
    let tree := Tree.element compsParentNode attributes children line endLine
    Outcome.Agree IsMessage (fun r made => ∃ s, r = (some s, tree.last depth :: more) ∧
        ∀ compName, Option.Rel (fun l o => o.compName = compName ∧
          ∀ name, active l.res (some l.comp) name = kept o.offers name ∧
            Shown o.offers name (kept o.offers name))
          (s.findComponent hash compName) (lastNamed made compName))
      (processComponents compare signedChar ctxlist baseContext baseDerivation compsWanted hash
        (before ++ (tree.nodes depth ++ more)))
      (componentsOf compare signedChar SetTarget.offers ctxlist baseContext baseDerivation
        compsWanted [] children) := by
  intro tree
  rw [allOpen_iff] at opened
  have agree := @readComponents_agree _ _ compare signedChar _ ctxlist baseContext baseDerivation
    compsWanted _ _ _ _ _ (@sets_alike hash signedChar ctxlist) _ _ Collects.new
    (before ++ (tree.nodes depth ++ more))
  have read := @readComponents_nodes _ _ compare signedChar SetTarget.offers ctxlist baseContext
    baseDerivation compsWanted before elsewhere [] attributes children line endLine depth opened more
  rw [read] at agree
  rw [processComponents]
  generalize readComponents compare signedChar (SetTarget.components hash) ctxlist baseContext
    baseDerivation compsWanted LoadedSet.new (before ++ (tree.nodes depth ++ more)) = r at agree
  generalize componentsOf compare signedChar SetTarget.offers ctxlist baseContext baseDerivation
    compsWanted [] children = r' at agree
  cases r' with
  | error e =>
    obtain ⟨e', failed, failed', kind⟩ | ⟨x, y, -, done', -⟩ := agree
    · cases failed'
      rw [failed]
      exact .stop kind
    · cases done'
  | ok made =>
    obtain ⟨e', -, failed', -⟩ | ⟨x, y, done, done', related, same⟩ := agree
    · cases failed'
    · cases done'
      obtain ⟨set, reader⟩ := x
      rw [done]
      cases related with
      | some collects =>
        exact .pure ⟨_, Prod.ext rfl same.symm, collects.shows⟩

/-- A component with a list of one user, who has a record. -/
def sampleTrees : List Tree :=
  [.leaf .significantWhitespace "#text" "\n" 2,
   .element "auth" []
     [.element "users" [("cfg:template", "name_$")]
       [.element "name_RECORD" [("cfg:name", "bob")]
         [.element "name" [] [.leaf .text "#text" "Bob" 5] 5 5] 4 6] 3 7] 2 8]

theorem sampleTrees_components :
    let profile := Tree.element "lcfg" [] [] 1 1
    let tree := Tree.element compsParentNode [] sampleTrees 2 9
    Outcome.Agree IsMessage (fun r made => ∃ s, r = (some s, tree.last 1 :: []) ∧
        ∀ compName, Option.Rel (fun l o => o.compName = compName ∧
          ∀ name, active l.res (some l.comp) name = kept o.offers name ∧
            Shown o.offers name (kept o.offers name))
          (s.findComponent djbhash compName) (lastNamed made compName))
      (processComponents strcmp true none none (some "local.xml") none djbhash
        ([profile.first 0] ++ (tree.nodes 1 ++ [])))
      (componentsOf strcmp true SetTarget.offers none none (some "local.xml") none [] sampleTrees) :=
  processComponents_tree djbhash strcmp true none none (some "local.xml") none _
    (by decide) [] sampleTrees 2 9 1 (by decide) []

end XmlProfile

end Lcfg
