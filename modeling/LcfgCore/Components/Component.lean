import LcfgCore.Components.ResList
import LcfgCore.Library.LinearProbe
import LcfgCore.Library.RefCount

/-!
# Components

A component is a hash table with one resource list for each name
(`components/component.c`). The lists are on a heap and may be shared between
components: a list is only written to by a component that holds the one
reference to it, and is cloned before that otherwise. The hash function is a
parameter. A read or write outside the array of buckets is a fault.
-/
namespace Lcfg

/-- A table whose full buckets hold an `α`. -/
structure ComponentTable (α : Type) where
  name : Option String
  resources : List (Option α)
  buckets : Nat
  entries : Nat
  primaryKey : LCFGComponentPK
  mergeRules : LCFGMergeRule
deriving DecidableEq, Repr

/-- The buckets of a component hold the addresses of its lists. -/
abbrev LCFGComponent := ComponentTable Addr

abbrev ListHeap := RefCount.Heap LCFGResourceList

/-- The same table with other things in its buckets. -/
def ComponentTable.map {α β : Type} (f : α → β) (comp : ComponentTable α) : ComponentTable β :=
  { comp with resources := comp.resources.map (Option.map f) }

namespace Component

/-- `LCFG_COMP_DEFAULT_SIZE`. -/
def defaultSize : Nat := 113

/-- The structure which `lcfgcomponent_new` fills in, before any buckets are allocated. -/
def blank : LCFGComponent := ⟨none, [], defaultSize, 0, {}, {}⟩

def new : LCFGComponent := { blank with resources := List.replicate defaultSize none }

def isValid (comp : LCFGComponent) : Bool := !isEmpty comp.name

def isMatch (comp : LCFGComponent) (name : String) : Bool :=
  strcmp (orDefault comp.name "") name = 0

def sameName (comp1 comp2 : LCFGComponent) : Bool :=
  strcmp (orDefault comp1.name "") (orDefault comp2.name "") = 0

inductive Fault where
  | outOfBounds (index : Nat)
deriving DecidableEq, Repr

/-- The loop `for ( i = 0; go && i < buckets; i++ )` over an array. -/
def forBuckets {σ α : Type} (body : σ → Nat → Option α → Except Fault σ) (go : σ → Bool) (i : Nat) :
    Nat → List (Option α) → σ → Except Fault σ
  | 0, _, s => .ok s
  | _ + 1, [], s => if go s then .error (.outOfBounds i) else .ok s
  | buckets + 1, entry :: rest, s =>
    if go s then body s i entry >>= forBuckets body go (i + 1) buckets rest else .ok s

/-- A component together with the heap which its lists are on. -/
structure CompState where
  heap : ListHeap
  comp : LCFGComponent

abbrev Result := Except Fault (CompState × LCFGChange)

abbrev MergeOutcome := Except Fault (CompState × LCFGChange × Option Message)

/-! ## Buckets -/

/-- The number of buckets for a load factor below `LCFG_COMP_LOAD_INIT`. -/
def wantBuckets (entries : Nat) : Nat := 2 * entries + 1

/-- Is the load factor at or over `LCFG_COMP_LOAD_MAX`? -/
def overloaded {α : Type} (comp : ComponentTable α) : Bool := 10 * comp.entries ≥ 7 * comp.buckets

def acquireList (heap : ListHeap) (list : Option Addr) : ListHeap :=
  match list with
  | none => heap
  | some a => RefCount.acquire heap a

/-- A list is destroyed with its last reference. -/
def relinquishList (heap : ListHeap) (list : Option Addr) : ListHeap :=
  match list with
  | none => heap
  | some a => RefCount.relinquish ResList.new heap a

/-- A new list takes the rules and the primary key of the component. -/
def emptyList {α : Type} (comp : ComponentTable α) : LCFGResourceList :=
  { ResList.new with mergeRules := comp.mergeRules, primaryKey := comp.primaryKey }

def setBucket (s : CompState) (bucket : Nat) (new : Option Addr) : Result :=
  match s.comp.resources[bucket]? with
  | none => .error (.outOfBounds bucket)
  | some current =>
    if current = new then .ok (s, .none)
    else
      let heap := relinquishList (acquireList s.heap new) current
      let resources := s.comp.resources.set bucket new
      match new, current with
      | some _, none =>
        .ok (⟨heap, { s.comp with resources, entries := s.comp.entries + 1 }⟩, .added)
      | some _, some _ => .ok (⟨heap, { s.comp with resources }⟩, .replaced)
      | none, _ =>
        .ok (⟨heap, { s.comp with resources, entries := s.comp.entries - 1 }⟩, .removed)

section Table

variable (hash : String → Nat)

def home (buckets : Nat) (name : String) : Nat := hash name % buckets

/-- `head` gives the first resource of what a bucket holds. -/
def findBucket {α : Type} (head : α → Option LCFGResource) (comp : ComponentTable α)
    (wantName : String) : Except Fault (Option Nat) :=
  match LinearProbe.probe comp.resources comp.buckets (home hash comp.buckets wantName)
      (fun a => (head a).any fun r => Resource.isMatch r wantName) with
  | none => .ok none
  | some i => if i < comp.resources.length then .ok (some i) else .error (.outOfBounds i)

variable (res : Addr → LCFGResource)

/-- The first resource of the list at an address. -/
def headOf (heap : ListHeap) (a : Addr) : Option LCFGResource :=
  (ResList.firstResource (heap.cell a)).map res

def listIsEmpty (heap : ListHeap) (list : Option Addr) : Bool :=
  list.all fun a => ResList.isEmpty (heap.cell a)

def insertList (s : CompState) (list : Option Addr) : Result :=
  match list with
  | none => .ok (s, .none)
  | some a =>
    if ResList.isEmpty (s.heap.cell a) then .ok (s, .none)
    else do
      let name := (ResList.getName res (s.heap.cell a)).getD ""
      match ← findBucket hash (headOf res s.heap) s.comp name with
      | some bucket => setBucket s bucket (some a)
      | none => .ok (s, .error)

/-- One round of the loop over the old buckets in `lcfgcomponent_resize`. -/
def transfer (s : CompState × LCFGChange) (_ : Nat) (list : Option Addr) : Result := do
  let (s, change) ← insertList hash res s.1 list
  .ok (⟨relinquishList s.heap list, s.comp⟩, change)

def resize (s : CompState) : Except Fault CompState :=
  let newBuckets := if overloaded s.comp then wantBuckets s.comp.entries else s.comp.buckets
  if s.comp.resources ≠ [] ∧ newBuckets ≤ s.comp.buckets then .ok s
  else
    let newComp := { s.comp with
      resources := List.replicate newBuckets none, entries := 0, buckets := newBuckets }
    if s.comp.resources = [] then .ok ⟨s.heap, newComp⟩
    else do
      let (moved, change) ← forBuckets (transfer hash res) (fun s => s.2.isOk) 0 s.comp.buckets
        s.comp.resources (⟨s.heap, newComp⟩, .none)
      -- the previous buckets come back if a list was not accepted
      if change.isOk then .ok moved else .ok ⟨moved.heap, s.comp⟩

/-- `lcfgcomponent_new` gets its buckets from a first resize. -/
theorem resize_blank (heap : ListHeap) :
    resize hash res ⟨heap, blank⟩ = .ok ⟨heap, new⟩ := rfl

def removeAllResources (s : CompState) : Except Fault CompState :=
  forBuckets (fun s i _ => (setBucket s i none).map Prod.fst) (fun _ => true) 0 s.comp.buckets
    s.comp.resources s

def setMergeRules (s : CompState) (newRules : LCFGMergeRule) : Except Fault CompState :=
  let body (s : CompState) (_ : Nat) (list : Option Addr) : Except Fault CompState :=
    match list with
    | none => .ok s
    | some a =>
      let changed := ResList.setMergeRules (s.heap.cell a) newRules
      .ok { s with heap := RefCount.write s.heap a changed }
  forBuckets body (fun _ => true) 0 s.comp.buckets s.comp.resources
    { s with comp := { s.comp with mergeRules := newRules } }

/-! ## Looking up -/

def size (s : CompState) : Except Fault Nat :=
  if s.comp.entries = 0 then .ok 0
  else if s.comp.primaryKey = {} then .ok s.comp.entries
  else
    let add (size : Nat) (_ : Nat) (list : Option Addr) : Except Fault Nat :=
      .ok (size + (list.map fun a => ResList.size (s.heap.cell a)).getD 0)
    forBuckets add (fun _ => true) 0 s.comp.buckets s.comp.resources 0

def isEmpty (s : CompState) : Except Fault Bool := (size s).map (· == 0)

def findList (s : CompState) (wantName : String) : Except Fault (Option Addr) := do
  if ← isEmpty s then .ok none
  else
    match ← findBucket hash (headOf res s.heap) s.comp wantName with
    | some bucket => .ok s.comp.resources[bucket]?.join
    | none => .ok none

def findResource (s : CompState) (wantName : String) : Except Fault (Option Addr) := do
  match ← findList hash res s wantName with
  | some a =>
    if ResList.isEmpty (s.heap.cell a) then .ok none
    else .ok (ResList.firstResource (s.heap.cell a))
  | none => .ok none

/-! ## Merging -/

def noFreeSpace : Message := .plain "No free space for new entries in component"

/-- Keep the list which was merged into, or drop the bucket of an empty one. -/
def storeList (s : CompState) (bucket : Nat) (list : Addr) (change : LCFGChange) : Result :=
  if ResList.isEmpty (s.heap.cell list) then setBucket s bucket none
  else if change ≠ .none then do
    let (s, setRc) ← setBucket s bucket (some list)
    if setRc = .added then (resize hash res s).map fun s => (s, setRc) else .ok (s, setRc)
  else .ok (s, .none)

/-- The list to merge into: the one in the bucket, a new one for an empty bucket,
or a clone of a shared one (copy on write). Says also which list is a new one. -/
def openList (s : CompState) (bucket : Nat) : ListHeap × Addr × Option Addr :=
  match s.comp.resources[bucket]?.join with
  | none =>
    let (a, heap) := RefCount.alloc s.heap (emptyList s.comp)
    (heap, a, some a)
  | some list =>
    if RefCount.isShared s.heap list then
      let (a, heap) := RefCount.alloc s.heap (ResList.clone (s.heap.cell list))
      (heap, a, some a)
    else (s.heap, list, none)

/-- What `lcfgcomponent_merge_resource` and `lcfgcomponent_merge_component` do for
one name, `merge` being the merge into the list for it. -/
def mergeBucket (merge : LCFGResourceList → Option Message → ResList.MergeResult) (name : String)
    (s : CompState) (msg : Option Message) : MergeOutcome := do
  match ← findBucket hash (headOf res s.heap) s.comp name with
  | none => .ok (s, .error, some noFreeSpace)
  | some bucket =>
    let (heap, list, newList) := openList s bucket
    let (merged, change, msg) := merge (heap.cell list) msg
    let s : CompState := ⟨RefCount.write heap list merged, s.comp⟩
    let (s, setRc) ← if change.isOk then storeList hash res s bucket list change else .ok (s, .none)
    let change := if change.isOk && !setRc.isOk then setRc else change
    .ok (⟨relinquishList s.heap newList, s.comp⟩, change, msg)

def mergeResource (s : CompState) (resource : Option Addr) (msg : Option Message) : MergeOutcome :=
  match resource.filter fun a => Resource.isValid (res a) with
  | none => .ok (s, .error, msg)
  | some resource =>
    let name := (res resource).name.getD ""
    mergeBucket hash res (fun list => ResList.mergeResource res list (some resource)) name s msg

/-- One round of the loop in `lcfgcomponent_merge_component`. The change is that of
the last list, whatever the lists before it came to. -/
def mergeRound (s : CompState × LCFGChange × Option Message) (_ : Nat) (list2 : Option Addr) :
    MergeOutcome :=
  match list2 with
  | none => .ok s
  | some a =>
    if ResList.isEmpty (s.1.heap.cell a) then .ok s
    else
      let name := (ResList.getName res (s.1.heap.cell a)).getD ""
      let list2 := s.1.heap.cell a
      mergeBucket hash res (fun list1 => ResList.mergeList res list1 list2) name s.1 s.2.2

/-- `lcfgcomponent_merge_component` for two different components. -/
def mergeComponent (s : CompState) (comp2 : LCFGComponent) (msg : Option Message) :
    MergeOutcome := do
  if ← isEmpty ⟨s.heap, comp2⟩ then .ok (s, .none, msg)
  else
    forBuckets (mergeRound hash res) (fun s => s.2.1.isOk) 0 comp2.buckets comp2.resources
      (s, .none, msg)

/-! ## Copies -/

/-- An empty component with the name, key and rules of another, and with buckets
for so many entries: the size is set first, and the resize is left to see to it. -/
def preallocate (heap : ListHeap) (comp : LCFGComponent) (entries : Nat) :
    Except Fault CompState :=
  let clone := { new with
    name := comp.name.filter (· ≠ ""), primaryKey := comp.primaryKey, mergeRules := comp.mergeRules }
  let newBuckets := wantBuckets entries
  if newBuckets > clone.buckets then resize hash res ⟨heap, { clone with buckets := newBuckets }⟩
  else .ok ⟨heap, clone⟩

/-- A missing name is not copied; any other has to be valid. -/
def nameIsClonable (comp : LCFGComponent) : Bool :=
  Lcfg.isEmpty comp.name || Resource.validName comp.name

/-- The lists are shared between the original and the clone. -/
def clone (heap : ListHeap) (comp : LCFGComponent) :
    Except Fault (ListHeap × Option LCFGComponent) :=
  if !nameIsClonable comp then .ok (heap, none)
  else do
    let clone ← preallocate hash res heap comp comp.entries
    let (clone, insertRc) ← forBuckets (fun s _ list => insertList hash res s.1 list)
      (fun s => s.2.isOk) 0 comp.buckets comp.resources (clone, LCFGChange.none)
    if insertRc.isOk then .ok (clone.heap, some clone.comp)
    else (removeAllResources clone).map fun s => (s.heap, none)

structure Selection where
  state : CompState
  ok : Bool
  msg : Option Message

/-- The loop over the tags in `lcfgcomponent_select`. -/
def selectLoop (comp : LCFGComponent) (allowNoexist : Bool) (s : Selection) :
    List String → Except Fault Selection
  | [] => .ok s
  | resname :: rest =>
    if !Resource.validName (some resname) then
      .ok { s with
        ok := false, msg := some (.plain ("Invalid resource name '" ++ resname ++ "'")) }
    else do
      let list ← findList hash res ⟨s.state.heap, comp⟩ resname
      if listIsEmpty s.state.heap list then
        if allowNoexist then selectLoop comp allowNoexist s rest
        else
          .ok { s with
            ok := false, msg := some (.plain (resname ++ " resource does not exist")) }
      else
        let (state, insertRc) ← insertList hash res s.state list
        if !insertRc.isOk then
          let text := "Failed to select resource named '" ++ resname ++ "'"
          .ok ⟨state, false, some (.plain text)⟩
        else if insertRc = .added then
          let state ← resize hash res state
          selectLoop comp allowNoexist { s with state } rest
        else selectLoop comp allowNoexist { s with state } rest

/-- The status of a selection is an error exactly if there is no component. -/
def select (heap : ListHeap) (comp : LCFGComponent) (resWanted : List String) (allowNoexist : Bool)
    (msg : Option Message) : Except Fault (ListHeap × Option LCFGComponent × Option Message) :=
  if !nameIsClonable comp then
    let text := "Invalid component name '" ++ comp.name.getD "" ++ "'"
    .ok (heap, none, some (.plain text))
  else do
    let start ← preallocate hash res heap comp resWanted.length
    let s ← selectLoop hash res comp allowNoexist ⟨start, true, msg⟩ resWanted
    if s.ok then .ok (s.state.heap, some s.state.comp, s.msg)
    else (removeAllResources s.state).map fun state => (state.heap, none, s.msg)

end Table

end Component
end Lcfg
