import LcfgCore.Library.LinkedList
import LcfgCore.Packages.Package

/-!
# Package lists

`lcfgpkglist_merge_package` and what it stands on (`packages/list.c`), and the
same merge on plain lists of packages. Packages are shared between lists: a
list holds their addresses, and `pkg` is what is stored there.

## Main result

`mergePackage_spec`: on a well-formed list of valid packages the procedure,
with its predecessor search, unlinking and appending, does what `mergeItems`
does.
-/
namespace Lcfg

/-- `LCFG_PKGLIST_PK_*`: the fields which tell the packages of a list apart. -/
structure LCFGPkgListPK where
  name : Bool := true
  arch : Bool := true
  ctx : Bool := false
deriving DecidableEq, Repr

structure LCFGPackageList where
  chain : LinkedList Addr
  primaryKey : LCFGPkgListPK
  mergeRules : LCFGMergeRule
deriving DecidableEq, Repr

namespace PkgList

def new : LCFGPackageList := ⟨.empty, {}, {}⟩

def isEmpty (list : LCFGPackageList) : Bool := list.chain.isEmpty

def firstPackage (list : LCFGPackageList) : Option Addr := list.chain.head?

def items (list : LCFGPackageList) : List Addr := list.chain.items

def insertNext (list : LCFGPackageList) (node : Option Nat) (item : Addr) :
    LCFGPackageList × LCFGChange :=
  match list.chain.insertNext node item with
  | none => (list, .error)
  | some chain => ({ list with chain }, .added)

def removeNext (list : LCFGPackageList) (node : Option Nat) : LCFGPackageList × LCFGChange :=
  if list.chain.isEmpty then (list, .none)
  else
    match list.chain.removeNext node with
    | none => (list, .error)
    | some (_, chain) => ({ list with chain }, .removed)

def append (list : LCFGPackageList) (item : Addr) : LCFGPackageList × LCFGChange :=
  insertNext list list.chain.tail item

/-- Does the stored package `cur` have the key of the package which is merged? -/
def sameKey (primaryKey : LCFGPkgListPK) (new cur : LCFGPackage) : Bool :=
  let matchArch := if primaryKey.arch then orDefault new.arch "" else Package.wildcard
  Package.isMatch cur (new.name.getD "") (some matchArch) &&
    (!primaryKey.ctx || Package.sameContext cur new)

/-- What the rules decide about a new package. A merge that is not accepted is an error. -/
structure MergeAction where
  removeOld : Bool := false
  appendNew : Bool := false
  accept : Bool := false
  mergeDerivation : Bool := false
  msg : Option Message := none
deriving DecidableEq, Repr

def MergeAction.keep : MergeAction := { accept := true }
def MergeAction.appendOnly : MergeAction := { appendNew := true, accept := true }
def MergeAction.swap : MergeAction := { removeOld := true, appendNew := true, accept := true }

/-- The first valid package with this name and architecture. -/
def findPackage (pkg : Addr → LCFGPackage) (list : LCFGPackageList) (name : String)
    (arch : Option String) : Option Addr :=
  if isEmpty list then none
  else (items list).find? fun a => Package.isValid (pkg a) && Package.isMatch (pkg a) name arch

section Merge

variable (vercmp : VersionOrder) (pkg : Addr → LCFGPackage)

/-- Rule block 1: the prefix of the new package, `cur` being the package it conflicts with. -/
def prefixAction (cur : Option Addr) (new : Addr) : MergeAction :=
  let pinned := cur.any fun c => (pkg c).pfx = .pin
  let action : MergeAction :=
    match (pkg new).pfx with
    | .none => {}
    | .remove => { removeOld := true, accept := true }
    | .add => .swap
    | .pin => .swap
    | .any => { appendNew := cur.isNone, accept := true }
    | .update => if cur.isSome && !pinned then .swap else .keep
    | .min =>
      if cur.all fun c => Package.compareVersions vercmp (pkg new) (pkg c) > 0 then .swap
      else .keep
    | .invalid c => { msg := some (.about (some new) ("Invalid prefix '" ++ toString c ++ "'")) }
  -- the pin is checked last: some prefixes have no effect on a current package
  if action.removeOld && cur.isSome then
    if pinned then { msg := some (.about cur "Version is pinned") }
    else { action with mergeDerivation := action.appendNew }
  else action

/-- The cascade of rule blocks. -/
def mergeAction (rules : LCFGMergeRule) (cur : Option Addr) (new : Addr) : MergeAction :=
  -- 0. the very same structure is in the list already
  if cur = some new then .keep
  -- 1. the prefix decides
  else if rules.usePrefix && (pkg new).pfx ≠ .none then prefixAction vercmp pkg cur new
  else
    match cur with
    -- 2. nothing to conflict with
    | none => .appendOnly
    | some c =>
      -- 3. an identical package is replaced
      if rules.squashIdentical && Package.equals vercmp (pkg c) (pkg new) then .swap
      -- 4. everything is kept
      else if rules.keepAll then .appendOnly
      -- 5. the current package is replaced
      else if rules.replace then .swap
      -- 6. the priorities decide
      else if rules.usePriority then
        if (pkg new).priority > (pkg c).priority then .swap
        else if (pkg new).priority < (pkg c).priority then .keep
        else {}
      else {}

structure MergeResult where
  list : LCFGPackageList
  derivs : DerivStore
  change : LCFGChange
  msg : Option Message

/-- Take out the old package, which comes behind the node `prev`. -/
def removeOld (list : LCFGPackageList) (prev : Option Nat) (msg : Option Message) :
    LCFGPackageList × LCFGChange × Option Message :=
  match removeNext list prev with
  | (list, .removed) => (list, .removed, msg)
  | (list, _) => (list, .error, some (.plain "Failed to remove old package"))

/-- Put in the new package, `result` being what the removal came to. -/
def appendNew (list : LCFGPackageList) (new : Addr) (result : LCFGChange)
    (msg : Option Message) : LCFGPackageList × LCFGChange × Option Message :=
  match append list new with
  | (list, .added) => (list, if result = .removed then .replaced else .added, msg)
  | (list, _) => (list, .error, some (.plain "Failed to append new package"))

/-- Carry out the removal and the insertion that were decided on. -/
def apply (list : LCFGPackageList) (prev : Option Nat) (cur : Option Addr) (new : Addr)
    (action : MergeAction) (msg : Option Message) : LCFGPackageList × LCFGChange × Option Message :=
  let msg := action.msg.or msg
  if action.accept then
    let (list, result, msg) :=
      if action.removeOld && cur.isSome then removeOld list prev msg else (list, .none, msg)
    if action.appendNew && result ≠ .error then appendNew list new result msg
    else (list, result, msg)
  else (list, .error, msg.or (some (.about cur "Version conflict")))

/-- `lcfgpkglist_merge_package`. -/
def mergePackage (derivs : DerivStore) (list : LCFGPackageList) (new : Option Addr)
    (msg : Option Message) : MergeResult :=
  match new.filter fun a => Package.isValid (pkg a) with
  | none => ⟨list, derivs, .error, some (.plain "Package is invalid")⟩
  | some new =>
    let (prev, node) := LinkedList.search (fun a => !Package.isValid (pkg a))
      (fun a => sameKey list.primaryKey (pkg new) (pkg a)) none list.chain.nodes
    let cur := node.map LinkedList.Node.data
    let action := mergeAction vercmp pkg list.mergeRules cur new
    let derivs :=
      match action.mergeDerivation, cur with
      | true, some c => Function.update derivs new (DerivList.mergeInto (derivs new) (derivs c))
      | _, _ => derivs
    let (list, change, msg) := apply list prev cur new action msg
    ⟨list, derivs, change, msg⟩

/-! ### The merge on plain lists -/

def findKey (primaryKey : LCFGPkgListPK) (xs : List Addr) (new : Addr) : Option Addr :=
  xs.find? fun a => sameKey primaryKey (pkg new) (pkg a)

def applyItems (primaryKey : LCFGPkgListPK) (xs : List Addr) (new : Addr)
    (action : MergeAction) : List Addr × LCFGChange :=
  if action.accept then
    let rest := xs.eraseP fun a => sameKey primaryKey (pkg new) (pkg a)
    match action.removeOld && (findKey pkg primaryKey xs new).isSome, action.appendNew with
    | true, true => (rest ++ [new], .replaced)
    | true, false => (rest, .removed)
    | false, true => (xs ++ [new], .added)
    | false, false => (xs, .none)
  else (xs, .error)

def mergeItems (primaryKey : LCFGPkgListPK) (rules : LCFGMergeRule) (xs : List Addr)
    (new : Addr) : List Addr × LCFGChange :=
  applyItems pkg primaryKey xs new (mergeAction vercmp pkg rules (findKey pkg primaryKey xs new) new)

end Merge

/-- A well-formed list of valid packages. -/
structure Wf (pkg : Addr → LCFGPackage) (list : LCFGPackageList) : Prop where
  chain : list.chain.Wf
  valid : ∀ a ∈ items list, Package.isValid (pkg a) = true

theorem new_wf (pkg : Addr → LCFGPackage) (primaryKey : LCFGPkgListPK) (rules : LCFGMergeRule) :
    Wf pkg { new with primaryKey, mergeRules := rules } :=
  ⟨LinkedList.empty_wf, by simp [items, new]⟩

variable {pkg : Addr → LCFGPackage}

theorem append_spec (list : LCFGPackageList) (wf : list.chain.Wf) (item : Addr) :
    ∃ chain, append list item = ({ list with chain }, .added) ∧ chain.Wf ∧
      chain.items = list.chain.items ++ [item] := by
  obtain ⟨chain, inserted, wf', same⟩ := wf.insertNext_tail item
  exact ⟨chain, by simp [append, insertNext, inserted], wf', same⟩

private theorem removeNext_spec (list : LCFGPackageList) (wf : list.chain.Wf)
    (skip found : Addr → Bool) (plain : ∀ a ∈ list.chain.items, skip a = false)
    (cur : LinkedList.Node Addr)
    (stopped : (LinkedList.search skip found none list.chain.nodes).2 = some cur) :
    ∃ chain, removeNext list (LinkedList.search skip found none list.chain.nodes).1 =
        ({ list with chain }, .removed) ∧ chain.Wf ∧
      chain.items = list.chain.items.eraseP found := by
  obtain ⟨chain, removed, wf', same⟩ := wf.removeNext_found skip found plain cur stopped
  have some_ : list.chain.isEmpty = false := by
    rw [Bool.eq_false_iff, ne_eq, wf.isEmpty_iff]
    intro none
    have hit := LinkedList.search_eq_find skip found list.chain plain
    simp [stopped, none] at hit
  exact ⟨chain, by simp [removeNext, some_, removed], wf', same⟩

/-- Carrying out what was decided, on the node which the search stopped at. -/
private theorem apply_spec (list : LCFGPackageList) (new : Addr) (action : MergeAction)
    (msg : Option Message) (wf : Wf pkg list) (valid : Package.isValid (pkg new) = true) :
    let skip := fun a => !Package.isValid (pkg a)
    let found := fun a => sameKey list.primaryKey (pkg new) (pkg a)
    let cur := findKey pkg list.primaryKey (items list) new
    let result := apply list (LinkedList.search skip found none list.chain.nodes).1 cur new action msg
    Wf pkg result.1 ∧
      (items result.1, result.2.1) = applyItems pkg list.primaryKey (items list) new action ∧
      result.1.primaryKey = list.primaryKey ∧ result.1.mergeRules = list.mergeRules ∧
      (result.2.1 = .error ∨ result.2.1 = .none → result.1 = list) := by
  intro skip found cur
  have plain : ∀ a ∈ list.chain.items, skip a = false := fun a member => by
    simp [skip, wf.valid a member]
  -- appending keeps the list well formed
  have appended (list' : LCFGPackageList) (wf' : Wf pkg list') :
      ∃ chain, append list' new = ({ list' with chain }, .added) ∧
        Wf pkg { list' with chain } ∧ chain.items = items list' ++ [new] := by
    obtain ⟨chain, same, good, content⟩ := append_spec list' wf'.chain new
    refine ⟨chain, same, ⟨good, fun a member => ?_⟩, content⟩
    rw [items, content, List.mem_append, List.mem_singleton] at member
    rcases member with old | rfl
    · exact wf'.valid a old
    · exact valid
  cases accepted : action.accept with
  | false => simpa [apply, applyItems, accepted] using wf
  | true =>
    -- the current package is removed from where the search has stopped
    cases removal : action.removeOld && (findKey pkg list.primaryKey list.chain.items new).isSome with
    | true =>
      obtain ⟨node, stopped⟩ : ∃ node,
          (LinkedList.search skip found none list.chain.nodes).2 = some node := by
        have hit := LinkedList.search_eq_find skip found list.chain plain
        rw [← Option.isSome_iff_exists, ← Option.isSome_map (f := LinkedList.Node.data), hit]
        exact (Bool.and_eq_true_iff.mp removal).2
      obtain ⟨chain, removed, good, content⟩ :=
        removeNext_spec list wf.chain skip found plain node stopped
      have wf' : Wf pkg { list with chain } := by
        refine ⟨good, fun a member => wf.valid a ?_⟩
        rw [items, content] at member
        exact List.mem_of_mem_eraseP member
      cases appending : action.appendNew with
      | false =>
        simp only [apply, removeOld, appendNew, applyItems, accepted, cur, items, removal, appending, removed]
        simpa [content, found] using wf'
      | true =>
        obtain ⟨chain', same, good', content'⟩ := appended _ wf'
        simp only [apply, removeOld, appendNew, applyItems, accepted, cur, items, removal, appending, removed, if_true,
          ne_eq, reduceCtorEq, not_false_eq_true, decide_true, Bool.and_self, same]
        simpa [content', content, items, found] using good'
    | false =>
      cases appending : action.appendNew with
      | false =>
        simp only [apply, removeOld, appendNew, applyItems, accepted, cur, items, removal, appending]
        simpa using wf
      | true =>
        obtain ⟨chain, same, good, content⟩ := appended list wf
        simp only [apply, removeOld, appendNew, applyItems, accepted, cur, items, removal, appending, if_true, if_false,
          Bool.false_eq_true, ne_eq, reduceCtorEq, not_false_eq_true, decide_true, Bool.and_self, same]
        simpa [content, items] using good

/-- The procedure refines the merge on plain lists: same packages, same change,
with the chain and its cached fields kept correct. -/
theorem mergePackage_spec (vercmp : VersionOrder) (derivs : DerivStore) (list : LCFGPackageList)
    (new : Addr) (msg : Option Message) (wf : Wf pkg list) (valid : Package.isValid (pkg new) = true) :
    let result := mergePackage vercmp pkg derivs list (some new) msg
    Wf pkg result.list ∧
      (items result.list, result.change) =
        mergeItems vercmp pkg list.primaryKey list.mergeRules (items list) new ∧
      result.list.primaryKey = list.primaryKey ∧ result.list.mergeRules = list.mergeRules := by
  have plain : ∀ a ∈ list.chain.items, (!Package.isValid (pkg a)) = false := fun a member => by
    simp [wf.valid a member]
  have cur := LinkedList.search_eq_find (fun a => !Package.isValid (pkg a))
    (fun a => sameKey list.primaryKey (pkg new) (pkg a)) list.chain plain
  simp only [mergePackage, Option.filter_some, valid, if_true, cur]
  obtain ⟨wf', same, primaryKey, rules, -⟩ := apply_spec list new _ msg wf valid
  exact ⟨wf', same, primaryKey, rules⟩

/-- With an error, or without a change, not even a node is touched. -/
theorem mergePackage_unchanged (vercmp : VersionOrder) (derivs : DerivStore)
    (list : LCFGPackageList) (new : Addr) (msg : Option Message) (wf : Wf pkg list)
    (valid : Package.isValid (pkg new) = true) :
    let result := mergePackage vercmp pkg derivs list (some new) msg
    result.change = .error ∨ result.change = .none → result.list = list := by
  have plain : ∀ a ∈ list.chain.items, (!Package.isValid (pkg a)) = false := fun a member => by
    simp [wf.valid a member]
  have cur := LinkedList.search_eq_find (fun a => !Package.isValid (pkg a))
    (fun a => sameKey list.primaryKey (pkg new) (pkg a)) list.chain plain
  simp only [mergePackage, Option.filter_some, valid, if_true, cur]
  exact (apply_spec list new _ msg wf valid).2.2.2.2

/-! ### Messages -/

/-- The plain texts with which a merge may fail. -/
def failures : List String :=
  ["Package is invalid", "Failed to remove old package", "Failed to append new package"]

private theorem mergeAction_msg (vercmp : VersionOrder) (rules : LCFGMergeRule)
    (cur : Option Addr) (new : Addr) (text : String) :
    (mergeAction vercmp pkg rules cur new).msg ≠ some (.plain text) := by
  unfold mergeAction
  split
  · simp [MergeAction.keep]
  · split
    · unfold prefixAction
      cases (pkg new).pfx <;> grind [MergeAction.keep, MergeAction.swap]
    · grind [MergeAction.keep, MergeAction.swap, MergeAction.appendOnly]

private theorem apply_msg (list : LCFGPackageList) (prev : Option Nat) (cur : Option Addr)
    (new : Addr) (action : MergeAction) (msg : Option Message) (text : String)
    (other : text ∉ failures) (given : action.msg.or msg ≠ some (.plain text)) :
    (apply list prev cur new action msg).2.2 ≠ some (.plain text) := by
  simp only [failures, List.mem_cons, List.not_mem_nil, or_false, not_or] at other
  -- the two texts of the failures are all that can be put in
  have removed (list : LCFGPackageList) (m : Option Message) (said : m ≠ some (.plain text)) :
      (removeOld list prev m).2.2 ≠ some (.plain text) := by
    unfold removeOld
    split
    · exact said
    · simpa using Ne.symm other.2.1
  have appended (list : LCFGPackageList) (result : LCFGChange) (m : Option Message)
      (said : m ≠ some (.plain text)) :
      (appendNew list new result m).2.2 ≠ some (.plain text) := by
    unfold appendNew
    split
    · exact said
    · simpa using Ne.symm other.2.2
  unfold apply
  generalize action.msg.or msg = m at given
  dsimp only
  split
  · split
    · split
      · exact appended _ _ _ (removed list m given)
      · exact removed list m given
    · split
      · exact appended _ _ _ given
      · exact given
  · cases m with
    | none => simp
    | some m => exact given

/-- A merge says nothing else in plain text. -/
theorem mergePackage_msg (vercmp : VersionOrder) (derivs : DerivStore) (list : LCFGPackageList)
    (new : Option Addr) (msg : Option Message) (text : String) (other : text ∉ failures)
    (given : msg ≠ some (.plain text)) :
    (mergePackage vercmp pkg derivs list new msg).msg ≠ some (.plain text) := by
  unfold mergePackage
  split
  · simp only [failures, List.mem_cons, List.not_mem_nil, or_false, not_or] at other
    simpa using Ne.symm other.1
  next new _ =>
    refine apply_msg _ _ _ _ _ _ text other fun said => ?_
    rcases Option.or_eq_some_iff.mp said with said | ⟨-, said⟩
    · exact mergeAction_msg vercmp _ _ _ text said
    · exact given said

/-! ### What a merge on plain lists leaves -/

theorem mem_mergeItems (vercmp : VersionOrder) {primaryKey : LCFGPkgListPK}
    {rules : LCFGMergeRule} {xs : List Addr} {new a : Addr}
    (member : a ∈ (mergeItems vercmp pkg primaryKey rules xs new).1) : a ∈ xs ∨ a = new := by
  revert member
  unfold mergeItems applyItems
  split
  · have erased {b : Addr} : b ∈ xs.eraseP (fun c => sameKey primaryKey (pkg new) (pkg c)) →
        b ∈ xs := List.mem_of_mem_eraseP
    split
    · simp only [List.mem_append, List.mem_singleton]
      exact Or.imp_left erased
    · exact fun member => Or.inl (erased member)
    · simp
    · exact Or.inl
  · exact Or.inl

/-- A first package is either added or not kept at all. -/
theorem mergeItems_nil (vercmp : VersionOrder) (primaryKey : LCFGPkgListPK)
    (rules : LCFGMergeRule) (new : Addr) :
    let result := mergeItems vercmp pkg primaryKey rules [] new
    result = ([new], .added) ∨ result = ([], .none) ∨ result = ([], .error) := by
  simp only [mergeItems, applyItems, findKey, List.find?_nil, Option.isSome_none, Bool.and_false]
  split
  · split <;> simp_all
  · simp

/-- Only the prefix `-` removes a package without putting another in its place. -/
private theorem mergeAction_removes_iff (vercmp : VersionOrder) (pkg : Addr → LCFGPackage)
    (rules : LCFGMergeRule) (c new : Addr) :
    let action := mergeAction vercmp pkg rules (some c) new
    (action.accept = true ∧ action.removeOld = true ∧ action.appendNew = false) ↔
      rules.usePrefix = true ∧ (pkg new).pfx = .remove ∧ c ≠ new ∧ (pkg c).pfx ≠ .pin := by
  by_cases same : c = new
  · simp [mergeAction, same, MergeAction.keep]
  · cases given : (pkg new).pfx <;> cases prefixes : rules.usePrefix <;>
      by_cases pinned : (pkg c).pfx = .pin <;>
      simp [mergeAction, prefixAction, same, given, prefixes, pinned] <;>
      grind [MergeAction.keep, MergeAction.swap, MergeAction.appendOnly]

/-- A merge leaves nothing of some packages only if it removes the last one. -/
theorem mergeItems_eq_nil_iff (vercmp : VersionOrder) (primaryKey : LCFGPkgListPK)
    (rules : LCFGMergeRule) (xs : List Addr) (new : Addr) (some_ : xs ≠ []) :
    (mergeItems vercmp pkg primaryKey rules xs new).1 = [] ↔
      rules.usePrefix = true ∧ (pkg new).pfx = .remove ∧ ∃ c, xs = [c] ∧ c ≠ new ∧
        sameKey primaryKey (pkg new) (pkg c) = true ∧ (pkg c).pfx ≠ .pin := by
  have erased (p : Addr → Bool) : xs.eraseP p = [] ↔ ∃ c, p c = true ∧ xs = [c] := by
    rw [List.eraseP_eq_nil_iff, or_iff_right some_]
  unfold mergeItems applyItems
  cases found : findKey pkg primaryKey xs new with
  -- nothing is removed where no package has the key
  | none =>
    have absent : ∀ c, xs = [c] → sameKey primaryKey (pkg new) (pkg c) = false := by
      rintro c rfl
      simpa [findKey] using found
    simp only [Option.isSome_none, Bool.and_false]
    constructor
    · cases (mergeAction vercmp pkg rules none new).accept <;>
        cases (mergeAction vercmp pkg rules none new).appendNew <;> simp [some_]
    · rintro ⟨-, -, c, only, -, same, -⟩
      simp [absent c only] at same
  | some c =>
    have decision := mergeAction_removes_iff vercmp pkg rules c new
    have same : sameKey primaryKey (pkg new) (pkg c) = true :=
      List.find?_some (p := fun a => sameKey primaryKey (pkg new) (pkg a)) found
    -- the only package of the list is the one found
    have only (d : Addr) (single : xs = [d]) : d = c := by
      have member := List.mem_of_find?_eq_some found
      rw [single, List.mem_singleton] at member
      exact member.symm
    generalize mergeAction vercmp pkg rules (some c) new = action at decision
    -- the list ends empty where the one package goes and no other comes
    have gone : (if action.accept = true then
        match action.removeOld && (some c).isSome, action.appendNew with
        | true, true => (xs.eraseP (fun a => sameKey primaryKey (pkg new) (pkg a)) ++ [new],
            LCFGChange.replaced)
        | true, false => (xs.eraseP fun a => sameKey primaryKey (pkg new) (pkg a), .removed)
        | false, true => (xs ++ [new], .added)
        | false, false => (xs, .none)
        else (xs, .error)).1 = [] ↔
        (action.accept = true ∧ action.removeOld = true ∧ action.appendNew = false) ∧
          ∃ d, sameKey primaryKey (pkg new) (pkg d) = true ∧ xs = [d] := by
      cases action.accept <;> cases action.removeOld <;> cases action.appendNew <;>
        simp [some_, erased]
    dsimp only at decision
    rw [gone, decision]
    constructor
    · rintro ⟨⟨prefixes, given, other, unpinned⟩, d, -, single⟩
      obtain rfl := only d single
      exact ⟨prefixes, given, d, single, other, same, unpinned⟩
    · rintro ⟨prefixes, given, d, single, other, -, unpinned⟩
      obtain rfl := only d single
      exact ⟨⟨prefixes, given, other, unpinned⟩, d, same, single⟩

end PkgList
end Lcfg
