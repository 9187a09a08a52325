import LcfgCore.Common
import LcfgCore.Library.LinkedList

/-!
# Resources and resource lists

The fields of a resource which a merge reads (`resource.c`), and the list of the
resources of one name (`reslist.c`) with its merges. Resources are shared
between lists: a list holds their addresses, and `res` is what is stored there.

## Main result

`mergeResource_spec`, `mergeList_spec`: on a well-formed list the procedures do
what the merges of plain lists do.
-/
namespace Lcfg

structure LCFGResource where
  name : Option String
  value : Option String
  context : Option String
  priority : Int
deriving DecidableEq, Repr

namespace Resource

def isValid (res : LCFGResource) : Bool := !isEmpty res.name

/-- `lcfgresource_valid_name`: a letter, and then letters, digits and underscores. -/
def validName (name : Option String) : Bool :=
  match name with
  | none => false
  | some name =>
    match name.toList with
    | [] => false
    | first :: rest => first.isAlpha && rest.all isWord

def isMatch (res : LCFGResource) (name : String) : Bool := strcmp (orDefault res.name "") name = 0

def compareNames (res1 res2 : LCFGResource) : Int :=
  strcmp (orDefault res1.name "") (orDefault res2.name "")

def sameName (res1 res2 : LCFGResource) : Bool := compareNames res1 res2 = 0

def sameContext (res1 res2 : LCFGResource) : Bool :=
  strcmp (res1.context.getD "") (res2.context.getD "") = 0

def compare (res1 res2 : LCFGResource) : Int :=
  let result := compareNames res1 res2
  let result :=
    if result = 0 then
      if res1.priority = res2.priority then 0 else if res1.priority < res2.priority then -1 else 1
    else result
  let result :=
    if result = 0 then strcmp (orDefault res1.value "") (orDefault res2.value "") else result
  -- the contexts are meant to be compared last, but the values are compared again
  if result = 0 then strcmp (orDefault res1.value "") (orDefault res2.value "") else result

def equals (res1 res2 : LCFGResource) : Bool := compare res1 res2 = 0

end Resource

/-- `LCFG_COMP_PK_*`: the fields which tell the resources of a component apart. -/
structure LCFGComponentPK where
  name : Bool := true
  ctx : Bool := false
deriving DecidableEq, Repr

/-- The reference count is kept by the heap which the list is on. -/
structure LCFGResourceList where
  chain : LinkedList Addr
  primaryKey : LCFGComponentPK
  mergeRules : LCFGMergeRule
deriving DecidableEq, Repr

namespace ResList

def new : LCFGResourceList := ⟨.empty, {}, {}⟩

def size (list : LCFGResourceList) : Nat := list.chain.size

def isEmpty (list : LCFGResourceList) : Bool := list.chain.isEmpty

def firstResource (list : LCFGResourceList) : Option Addr := list.chain.head?

def items (list : LCFGResourceList) : List Addr := list.chain.items

def setMergeRules (list : LCFGResourceList) (newRules : LCFGMergeRule) : LCFGResourceList :=
  { list with mergeRules := newRules }

def insertNext (list : LCFGResourceList) (node : Option Nat) (item : Addr) :
    LCFGResourceList × LCFGChange :=
  match list.chain.insertNext node item with
  | none => (list, .error)
  | some chain => ({ list with chain }, .added)

def removeNext (list : LCFGResourceList) (node : Option Nat) : LCFGResourceList × LCFGChange :=
  if list.chain.isEmpty then (list, .none)
  else
    match list.chain.removeNext node with
    | none => (list, .error)
    | some (_, chain) => ({ list with chain }, .removed)

def append (list : LCFGResourceList) (item : Addr) : LCFGResourceList × LCFGChange :=
  insertNext list list.chain.tail item

/-- The resources of the list, in a list of their own. An append at the tail
cannot fail (`append_spec`), so neither does the clone. -/
def clone (list : LCFGResourceList) : LCFGResourceList :=
  (items list).foldl (fun clone resource => (append clone resource).1)
    { new with mergeRules := list.mergeRules, primaryKey := list.primaryKey }

/-- What the rules decide about a new resource. -/
structure MergeAction where
  removeOld : Bool := false
  appendNew : Bool := false
  accept : Bool := false
deriving DecidableEq, Repr

def MergeAction.keep : MergeAction := { accept := true }
def MergeAction.appendOnly : MergeAction := { appendNew := true, accept := true }
def MergeAction.swap : MergeAction := { removeOld := true, appendNew := true, accept := true }

abbrev MergeResult := LCFGResourceList × LCFGChange × Option Message

section Merge

variable (res : Addr → LCFGResource)

/-- `lcfgreslist_get_name`: the name of the first resource. -/
def getName (list : LCFGResourceList) : Option String :=
  (firstResource list).bind fun a => (res a).name

/-- Does the stored resource `cur` have the key of the resource which is merged? -/
def sameKey (primaryKey : LCFGComponentPK) (new cur : LCFGResource) : Bool :=
  Resource.sameName cur new && (!primaryKey.ctx || Resource.sameContext cur new)

def mergeAction (rules : LCFGMergeRule) (cur : Option Addr) (new : Addr) : MergeAction :=
  -- 0. the very same structure is in the list already
  if cur = some new then .keep
  else
    match cur with
    -- 2. nothing to conflict with
    | none => .appendOnly
    | some c =>
      -- 3. an identical resource is replaced
      if rules.squashIdentical && Resource.equals (res c) (res new) then .swap
      -- 4. everything is kept
      else if rules.keepAll then .appendOnly
      -- 5. the current resource is replaced
      else if rules.replace then .swap
      -- 6. the priorities decide
      else if rules.usePriority then
        if (res new).priority > (res c).priority then .swap
        else if (res new).priority < (res c).priority then .keep
        else {}
      else {}

/-- Take out the old resource, which comes behind the node `prev`. -/
def removeOld (list : LCFGResourceList) (prev : Option Nat) (msg : Option Message) : MergeResult :=
  match removeNext list prev with
  | (list, .removed) => (list, .removed, msg)
  | (list, _) => (list, .error, some (.plain "Failed to remove old resource"))

/-- Put in the new resource, `result` being what the removal came to. -/
def appendNew (list : LCFGResourceList) (new : Addr) (result : LCFGChange)
    (msg : Option Message) : MergeResult :=
  match append list new with
  | (list, .added) => (list, if result = .removed then .replaced else .added, msg)
  | (list, _) => (list, .error, some (.plain "Failed to append new resource"))

/-- Carry out the removal and the insertion that were decided on. -/
def apply (list : LCFGResourceList) (prev : Option Nat) (cur : Option Addr) (new : Addr)
    (action : MergeAction) (msg : Option Message) : MergeResult :=
  if action.accept then
    let (list, result, msg) :=
      if action.removeOld && cur.isSome then removeOld list prev msg else (list, .none, msg)
    if action.appendNew && result ≠ .error then appendNew list new result msg
    else (list, result, msg)
  else (list, .error, msg.or (some (.about cur "conflict")))

/-- `lcfgreslist_merge_resource`. -/
def mergeResource (list : LCFGResourceList) (new : Option Addr) (msg : Option Message) :
    MergeResult :=
  match new.filter fun a => Resource.isValid (res a) with
  | none => (list, .error, some (.plain "Resource is invalid"))
  | some new =>
    let (prev, node) := LinkedList.search (fun _ => false)
      (fun a => sameKey list.primaryKey (res new) (res a)) none list.chain.nodes
    let cur := node.map LinkedList.Node.data
    apply list prev cur new (mergeAction res list.mergeRules cur new) msg

/-- The loop over the second list in `lcfgreslist_merge_list`. -/
def mergeLoop (list1 : LCFGResourceList) (change : LCFGChange) (msg : Option Message) :
    List Addr → MergeResult
  | [] => (list1, change, msg)
  | resource :: rest =>
    match mergeResource res list1 (some resource) msg with
    | (list1, .error, msg) => (list1, .error, msg)
    | (list1, mergeRc, msg) =>
      mergeLoop list1 (if mergeRc ≠ .none then .modified else change) msg rest

def mergeList (list1 list2 : LCFGResourceList) (msg : Option Message) : MergeResult :=
  mergeLoop res list1 .none msg (items list2)

end Merge

/-! ### The merges on plain lists -/

/-- A resource list without its chain of nodes. -/
structure Plain where
  items : List Addr
  primaryKey : LCFGComponentPK
  mergeRules : LCFGMergeRule
deriving DecidableEq, Repr

def plain (list : LCFGResourceList) : Plain := ⟨items list, list.primaryKey, list.mergeRules⟩

namespace Plain

variable (res : Addr → LCFGResource)

def findKey (list : Plain) (new : Addr) : Option Addr :=
  list.items.find? fun a => sameKey list.primaryKey (res new) (res a)

def applyItems (list : Plain) (new : Addr) (action : MergeAction) : Plain × LCFGChange :=
  if action.accept then
    let rest := list.items.eraseP fun a => sameKey list.primaryKey (res new) (res a)
    match action.removeOld && (list.findKey res new).isSome, action.appendNew with
    | true, true => ({ list with items := rest ++ [new] }, .replaced)
    | true, false => ({ list with items := rest }, .removed)
    | false, true => ({ list with items := list.items ++ [new] }, .added)
    | false, false => (list, .none)
  else (list, .error)

/-- A resource is merged into a plain list; an invalid one is an error. -/
def mergeResource (list : Plain) (new : Addr) : Plain × LCFGChange :=
  if Resource.isValid (res new) then
    list.applyItems res new (mergeAction res list.mergeRules (list.findKey res new) new)
  else (list, .error)

/-- The resources are merged one by one, up to the first conflict. -/
def mergeItems (list : Plain) (change : LCFGChange) : List Addr → Plain × LCFGChange
  | [] => (list, change)
  | resource :: rest =>
    match list.mergeResource res resource with
    | (list, .error) => (list, .error)
    | (list, mergeRc) => list.mergeItems (if mergeRc ≠ .none then .modified else change) rest

def mergeList (list1 list2 : Plain) : Plain × LCFGChange :=
  list1.mergeItems res .none list2.items

end Plain

/-! ### The procedures do what the plain merges do -/

variable {res : Addr → LCFGResource}

private theorem append_spec (list : LCFGResourceList) (wf : list.chain.Wf) (item : Addr) :
    ∃ chain, append list item = ({ list with chain }, .added) ∧ chain.Wf ∧
      chain.items = list.chain.items ++ [item] := by
  obtain ⟨chain, inserted, wf', same⟩ := wf.insertNext_tail item
  exact ⟨chain, by simp [append, insertNext, inserted], wf', same⟩

theorem clone_spec (list : LCFGResourceList) :
    (clone list).chain.Wf ∧ plain (clone list) = plain list := by
  -- each resource of the original is appended to the clone
  have copied : ∀ (rest : List Addr) (acc : LCFGResourceList), acc.chain.Wf →
      let copy := rest.foldl (fun clone resource => (append clone resource).1) acc
      copy.chain.Wf ∧ plain copy = ⟨items acc ++ rest, acc.primaryKey, acc.mergeRules⟩ := by
    intro rest
    induction rest with
    | nil =>
      intro acc wf
      exact ⟨wf, by simp [plain]⟩
    | cons a rest ih =>
      intro acc wf
      obtain ⟨chain, appended, wf', content⟩ := append_spec acc wf a
      simp only [List.foldl_cons, appended]
      obtain ⟨good, same⟩ := ih { acc with chain } wf'
      refine ⟨good, same.trans ?_⟩
      simp [items, content]
  have start := copied (items list)
    { new with mergeRules := list.mergeRules, primaryKey := list.primaryKey } LinkedList.empty_wf
  exact ⟨start.1, start.2.trans (by simp [plain, items, new])⟩

private theorem removeNext_spec (list : LCFGResourceList) (wf : list.chain.Wf)
    (found : Addr → Bool) (cur : LinkedList.Node Addr)
    (stopped : (LinkedList.search (fun _ => false) found none list.chain.nodes).2 = some cur) :
    ∃ chain, removeNext list
        (LinkedList.search (fun _ => false) found none list.chain.nodes).1 =
        ({ list with chain }, .removed) ∧ chain.Wf ∧
      chain.items = list.chain.items.eraseP found := by
  have plain : ∀ a ∈ list.chain.items, (fun _ => false) a = false := fun _ _ => rfl
  obtain ⟨chain, removed, wf', same⟩ := wf.removeNext_found _ found plain cur stopped
  have some_ : list.chain.isEmpty = false := by
    rw [Bool.eq_false_iff, ne_eq, wf.isEmpty_iff]
    intro none
    have hit := LinkedList.search_eq_find _ found list.chain plain
    simp [stopped, none] at hit
  exact ⟨chain, by simp [removeNext, some_, removed], wf', same⟩

/-- Carrying out what was decided, on the node which the search stopped at. -/
private theorem apply_spec (list : LCFGResourceList) (new : Addr) (action : MergeAction)
    (msg : Option Message) (wf : list.chain.Wf) :
    let found := fun a => sameKey list.primaryKey (res new) (res a)
    let cur := (plain list).findKey res new
    let result := apply list
      (LinkedList.search (fun _ => false) found none list.chain.nodes).1 cur new action msg
    result.1.chain.Wf ∧
      (plain result.1, result.2.1) = (plain list).applyItems res new action := by
  intro found cur
  cases accepted : action.accept with
  | false => simpa [apply, Plain.applyItems, accepted] using wf
  | true =>
    cases removal : action.removeOld && ((plain list).findKey res new).isSome with
    | true =>
      -- the current resource is removed from where the search has stopped
      obtain ⟨node, stopped⟩ : ∃ node,
          (LinkedList.search (fun _ => false) found none list.chain.nodes).2 = some node := by
        have hit := LinkedList.search_eq_find (fun _ => false) found list.chain fun _ _ => rfl
        rw [← Option.isSome_iff_exists, ← Option.isSome_map (f := LinkedList.Node.data), hit]
        exact (Bool.and_eq_true_iff.mp removal).2
      obtain ⟨chain, removed, good, content⟩ := removeNext_spec list wf found node stopped
      cases appending : action.appendNew with
      | false =>
        simp only [apply, removeOld, Plain.applyItems, accepted, cur, removal, appending, removed]
        exact ⟨good, by simp [plain, items, content, found]⟩
      | true =>
        obtain ⟨chain', same, good', content'⟩ := append_spec { list with chain } good new
        simp only [apply, removeOld, appendNew, Plain.applyItems, accepted, cur, removal, appending,
          removed, if_true, ne_eq, reduceCtorEq, not_false_eq_true, decide_true, Bool.and_self, same]
        exact ⟨good', by simp [plain, items, content', content, found]⟩
    -- nothing to remove
    | false =>
      cases appending : action.appendNew with
      | false =>
        simp only [apply, Plain.applyItems, accepted, cur, removal, appending]
        simpa using wf
      | true =>
        obtain ⟨chain, same, good, content⟩ := append_spec list wf new
        simp only [apply, appendNew, Plain.applyItems, accepted, cur, removal, appending, if_true,
          if_false, Bool.false_eq_true, ne_eq, reduceCtorEq, not_false_eq_true, decide_true,
          Bool.and_self, same]
        exact ⟨good, by simp [plain, items, content]⟩

theorem mergeResource_spec (list : LCFGResourceList) (new : Addr) (msg : Option Message)
    (wf : list.chain.Wf) :
    let result := mergeResource res list (some new) msg
    result.1.chain.Wf ∧ (plain result.1, result.2.1) = (plain list).mergeResource res new := by
  have cur := LinkedList.search_eq_find (fun _ => false)
    (fun a => sameKey list.primaryKey (res new) (res a)) list.chain fun _ _ => rfl
  cases valid : Resource.isValid (res new) with
  | false =>
    simp only [mergeResource, Plain.mergeResource, Option.filter_some, valid, Bool.false_eq_true,
      if_false]
    exact ⟨wf, trivial⟩
  | true =>
    simp only [mergeResource, Plain.mergeResource, Option.filter_some, valid, if_true, cur]
    exact apply_spec list new _ msg wf

private theorem mergeLoop_spec (more : List Addr) (list : LCFGResourceList) (change : LCFGChange)
    (msg : Option Message) (wf : list.chain.Wf) :
    let result := mergeLoop res list change msg more
    result.1.chain.Wf ∧ (plain result.1, result.2.1) = (plain list).mergeItems res change more := by
  induction more generalizing list change msg with
  | nil => exact ⟨wf, rfl⟩
  | cons a rest ih =>
    have merge : let result := mergeResource res list (some a) msg
        result.1.chain.Wf ∧ (plain result.1, result.2.1) = (plain list).mergeResource res a :=
      mergeResource_spec list a msg wf
    obtain ⟨wf', same⟩ := merge
    simp only [mergeLoop, Plain.mergeItems, ← same]
    generalize mergeResource res list (some a) msg = merged at wf'
    obtain ⟨list', mergeRc, msg'⟩ := merged
    cases mergeRc with
    | error => exact ⟨wf', rfl⟩
    | _ => exact ih list' _ msg' wf'

theorem mergeList_spec (list1 list2 : LCFGResourceList) (msg : Option Message)
    (wf : list1.chain.Wf) :
    let result := mergeList res list1 list2 msg
    result.1.chain.Wf ∧
      (plain result.1, result.2.1) = (plain list1).mergeList res (plain list2) :=
  mergeLoop_spec (items list2) list1 .none msg wf

end ResList
end Lcfg
