import LcfgCore.Library.DLinked
import LcfgCore.Library.Run
import LcfgCore.Resources.Tags
import Mathlib.Data.List.Perm.Subperm

/-!
# Tag lists as linked nodes

The nodes of tag lists in memory, with the head, the tail and the size which each list keeps
beside them. The size is an `unsigned int` (`resources/tags/list.c`).

## Main results

* `Chained.insertNext`, `Chained.removeTag`, `Chained.sort`, `Chained.mutateReplace`: what the
  operations do to a chain of cells.
* `Chained.coherent_iff`: the links, the ends and the size agree if and only if an
  `unsigned int` can count the cells.
* `run_leaves`: what any call leaves is a chain, which grows only when a tag is put into it.
* `run_links_agree_iff`: the links and the size agree in all states of a run if and only if no tag
  is put into a list whose size is the largest one.
-/
namespace Lcfg

open DLinked (Node Heap Linked Follows first last addresses modify modifyIf)

/-- A tag. Its name, if there is one, has been checked when it was set. -/
structure LCFGTag where
  name : String
  named : name = "" ∨ TagList.validTag name = true
deriving DecidableEq

namespace Tag

def isValid (tag : LCFGTag) : Bool := tag.name != ""

/-- `lcfgtag_from_string` -/
def fromString (input : String) : Except String LCFGTag :=
  let name := String.ofList (input.toList.dropWhile isSpace)
  if name = "" then .error "Empty tag"
  else if valid : TagList.validTag name = true then .ok ⟨name, .inr valid⟩
  else .error ("Invalid tag name '" ++ name ++ "'")

def «match» (tag : LCFGTag) (name : String) : Bool := tag.name == name

/-- `lcfgtag_compare` -/
def compare (tag other : LCFGTag) : Int := strcmp tag.name other.name

theorem fromString_valid {input : String} {tag : LCFGTag} (done : fromString input = .ok tag) :
    isValid tag = true := by
  rw [fromString] at done
  split at done
  · cases done
  case isFalse some_ =>
    split at done
    · obtain rfl := Except.ok.inj done
      exact bne_iff_ne.mpr some_
    · cases done

end Tag

/-- The nodes in memory, and the address for the next one. -/
structure TagMemory where
  nodes : Heap LCFGTag := fun _ => none
  fresh : Nat := 0

/-- What a list keeps beside its nodes. -/
structure TagListHead where
  head : Option Nat := none
  tail : Option Nat := none
  size : Nat := 0
deriving DecidableEq

namespace TagNodes

def isEmpty (taglist : TagListHead) : Bool := taglist.size == 0

/-- `lcfgtaglist_insert_next`: at the head, or behind a node. Nothing, if a pointer is followed
which is not valid. -/
def insertNext (mem : TagMemory) (taglist : TagListHead) (tagnode : Option Nat)
    (tag : Option LCFGTag) : Option (TagMemory × TagListHead × LCFGChange) :=
  match tag with
  | none => some (mem, taglist, .error)
  | some tag =>
    if !Tag.isValid tag then some (mem, taglist, .error)
    else
      let newNode := mem.fresh
      let size := (taglist.size + 1) % 2 ^ 32
      match tagnode with
      | none => do
        let curHead := taglist.head
        let nodes := Function.update mem.nodes newNode (some { data := tag, next := curHead })
        let nodes ← modifyIf nodes curHead fun node => { node with prev := some newNode }
        let tail := if isEmpty taglist then some newNode else taglist.tail
        return ({ nodes, fresh := newNode + 1 }, { head := some newNode, tail, size }, .added)
      | some tagnode => do
        let node ← mem.nodes tagnode
        let nodes := Function.update mem.nodes newNode
          (some { data := tag, prev := some tagnode, next := node.next })
        let nodes ← modifyIf nodes node.next fun node => { node with prev := some newNode }
        let nodes ← modify nodes tagnode fun node => { node with next := some newNode }
        let tail := if node.next = none then some newNode else taglist.tail
        return ({ nodes, fresh := newNode + 1 }, { taglist with tail, size }, .added)

/-- `lcfgtaglist_remove_tag`: the tag too; the node is not used any more. -/
def removeTag (mem : TagMemory) (taglist : TagListHead) (tagnode : Option Nat) :
    Option (TagMemory × TagListHead × Option LCFGTag × LCFGChange) :=
  if isEmpty taglist then some (mem, taglist, none, .none)
  else do
    let tagnode ← tagnode.or taglist.head
    let node ← mem.nodes tagnode
    let size := (taglist.size + (2 ^ 32 - 1)) % 2 ^ 32
    if some tagnode = taglist.head then
      let nodes ← modifyIf mem.nodes node.next fun next => { next with prev := none }
      let tail := if node.next = none then none else taglist.tail
      return ({ mem with nodes := Function.update nodes tagnode none },
        { head := node.next, tail, size }, some node.data, .removed)
    else
      let before ← node.prev
      let nodes ← modify mem.nodes before fun prev => { prev with next := node.next }
      let nodes ← modifyIf nodes node.next fun next => { next with prev := node.prev }
      let tail := if node.next = none then node.prev else taglist.tail
      return ({ mem with nodes := Function.update nodes tagnode none },
        { taglist with tail, size }, some node.data, .removed)

/-- The loop of `lcfgtaglist_find_node` over at most `fuel` nodes. -/
def findLoop (nodes : Heap LCFGTag) (wantName : String) : Nat → Option Nat → Option (Option Nat)
  | 0, _ => none
  | _ + 1, none => some none
  | fuel + 1, some curNode => do
    let node ← nodes curNode
    if Tag.match node.data wantName then return some curNode
    else findLoop nodes wantName fuel node.next

/-- No list has more nodes than addresses have been given out. -/
def findNode (mem : TagMemory) (taglist : TagListHead) (wantName : String) :
    Option (Option Nat) :=
  if isEmpty taglist then some none
  else findLoop mem.nodes wantName (mem.fresh + 1) taglist.head

def contains (mem : TagMemory) (taglist : TagListHead) (name : String) : Option Bool :=
  (findNode mem taglist name).map Option.isSome

/-- One pass of the bubble sort, and whether anything was swapped. -/
def sortPass : Nat → Heap LCFGTag → Option Nat → Bool → Option (Heap LCFGTag × Bool)
  | 0, _, _, _ => none
  | _ + 1, nodes, none, swapped => some (nodes, swapped)
  | fuel + 1, nodes, some curNode, swapped => do
    let node ← nodes curNode
    match node.next with
    | none => return (nodes, swapped)
    | some nextNode =>
      let next ← nodes nextNode
      if Tag.compare node.data next.data > 0 then
        let nodes ← modify nodes curNode fun cur => { cur with data := next.data }
        let nodes ← modify nodes nextNode fun cur => { cur with data := node.data }
        sortPass fuel nodes (some nextNode) true
      else sortPass fuel nodes (some nextNode) swapped

/-- The passes, until one swaps nothing. -/
def sortLoop (passFuel : Nat) (head : Option Nat) : Nat → Heap LCFGTag → Option (Heap LCFGTag)
  | 0, _ => none
  | rounds + 1, nodes => do
    let (nodes, swapped) ← sortPass passFuel nodes head false
    if swapped then sortLoop passFuel head rounds nodes else return nodes

/-- `lcfgtaglist_sort`; the limits are never reached. -/
def sort (mem : TagMemory) (taglist : TagListHead) : Option TagMemory :=
  if taglist.size < 2 then some mem
  else
    (sortLoop (mem.fresh + 1) taglist.head (mem.fresh * mem.fresh + 1) mem.nodes).map fun nodes =>
      { mem with nodes }

/-- The loop of `lcfgtaglist_mutate_replace` over at most `fuel` nodes. -/
def replaceLoop (oldName newName : String) (global : Bool) :
    Nat → Heap LCFGTag → Option Nat → LCFGChange → Option (Heap LCFGTag × LCFGChange)
  | 0, _, _, _ => none
  | _ + 1, nodes, none, change => some (nodes, change)
  | fuel + 1, nodes, some curNode, change => do
    let node ← nodes curNode
    if Tag.match node.data oldName then
      match Tag.fromString newName with
      | .error _ => return (nodes, .error)
      | .ok newTag =>
        let nodes ← modify nodes curNode fun cur => { cur with data := newTag }
        if global then replaceLoop oldName newName global fuel nodes node.next .replaced
        else return (nodes, .replaced)
    else replaceLoop oldName newName global fuel nodes node.next change

/-- `lcfgtaglist_mutate_replace`: the message too. -/
def mutateReplace (mem : TagMemory) (taglist : TagListHead) (oldName newName : String)
    (global : Bool) : Option (TagMemory × LCFGChange × Option String) :=
  if isEmpty taglist then some (mem, .none, none)
  else if !TagList.validTag newName then
    some (mem, .error, some ("Invalid replacement tag '" ++ newName ++ "'"))
  else
    (replaceLoop oldName newName global (mem.fresh + 1) mem.nodes taglist.head .none).map
      fun (nodes, change) => ({ mem with nodes }, change, none)

/-- `lcfgtaglist_append_tag` -/
def appendTag (mem : TagMemory) (taglist : TagListHead) (tag : LCFGTag) :
    Option (TagMemory × TagListHead × LCFGChange) := insertNext mem taglist taglist.tail (some tag)

/-- `lcfgtaglist_prepend_tag` -/
def prependTag (mem : TagMemory) (taglist : TagListHead) (tag : LCFGTag) :
    Option (TagMemory × TagListHead × LCFGChange) := insertNext mem taglist none (some tag)

/-- A mutator which makes a tag and puts it into the list. -/
def mutateWith (put : TagMemory → TagListHead → LCFGTag →
      Option (TagMemory × TagListHead × LCFGChange))
    (mem : TagMemory) (taglist : TagListHead) (tagname : String) :
    Option (TagMemory × TagListHead × LCFGChange × Option String) :=
  match Tag.fromString tagname with
  | .error msg => some (mem, taglist, .error, some msg)
  | .ok newTag => (put mem taglist newTag).map fun (mem, taglist, change) =>
    (mem, taglist, change, none)

def mutateAppend := mutateWith appendTag

def mutatePrepend := mutateWith prependTag

def mutateAdd (mem : TagMemory) (taglist : TagListHead) (tagname : String) :
    Option (TagMemory × TagListHead × LCFGChange × Option String) := do
  if ← contains mem taglist tagname then return (mem, taglist, .none, none)
  else mutateAppend mem taglist tagname

/-! ## Chains -/

/-- Addresses which have not been given out are not in use. -/
def Unused (mem : TagMemory) : Prop := ∀ a, mem.fresh ≤ a → mem.nodes a = none

/-- The list holds the cells; its size is cut to an `unsigned int`. -/
structure Chained (mem : TagMemory) (taglist : TagListHead) (cells : List (Nat × LCFGTag)) :
    Prop where
  linked : Linked mem.nodes none cells none
  head : taglist.head = first cells none
  tail : taglist.tail = last none cells
  size : taglist.size = cells.length % 2 ^ 32
  valid : ∀ cell ∈ cells, Tag.isValid cell.2 = true

/-- Everything but the given nodes is as it was. -/
def SameBut (changed : Nat → Prop) (mem mem' : TagMemory) : Prop :=
  ∀ a, a < mem.fresh → ¬ changed a → mem'.nodes a = mem.nodes a

section Chains

variable {mem : TagMemory} {taglist : TagListHead} {cells xs ys : List (Nat × LCFGTag)}
  {tag : LCFGTag} {a : Nat}

theorem Unused.below (unused : Unused mem) (used : mem.nodes a ≠ none) : a < mem.fresh := by
  by_contra above
  exact used (unused a (Nat.le_of_not_lt above))

theorem Chained.below (chained : Chained mem taglist cells) (unused : Unused mem) :
    ∀ a ∈ addresses cells, a < mem.fresh := fun _ member =>
  unused.below (chained.linked.used member)

/-- There are no more cells than addresses. -/
theorem Chained.length_le (chained : Chained mem taglist cells) (unused : Unused mem) :
    cells.length ≤ mem.fresh := by
  have inside : addresses cells ⊆ List.range mem.fresh := fun a member =>
    List.mem_range.mpr (chained.below unused a member)
  have length := (List.subperm_of_subset chained.linked.nodup inside).length_le
  rwa [List.length_range, addresses, List.length_map] at length

/-- A valid tag is put between two parts of the list. -/
theorem Chained.insertNext (chained : Chained mem taglist (xs ++ ys)) (unused : Unused mem)
    (valid : Tag.isValid tag = true)
    (empty : xs = [] → (isEmpty taglist = true ↔ ys = [])) :
    ∃ mem' taglist', insertNext mem taglist (last none xs) (some tag) =
        some (mem', taglist', .added) ∧
      Chained mem' taglist' (xs ++ (mem.fresh, tag) :: ys) ∧ Unused mem' ∧
      mem'.fresh = mem.fresh + 1 ∧
      SameBut (fun a => last none xs = some a ∨ first ys none = some a) mem mem' := by
  have inside := chained.below unused
  obtain ⟨lastIn, firstIn⟩ := DLinked.neighbours xs ys
  obtain ⟨nodes1, nodes2, write1, write2, linked', same⟩ :=
    chained.linked.insert_writes (unused mem.fresh (Nat.le_refl _)) tag
  refine ⟨{ nodes := nodes2, fresh := mem.fresh + 1 },
    { head := first (xs ++ (mem.fresh, tag) :: ys) none
      tail := last none (xs ++ (mem.fresh, tag) :: ys)
      size := (taglist.size + 1) % 2 ^ 32 }, ?_, ⟨linked', rfl, rfl, ?_, ?_⟩, ?_, rfl, ?_⟩
  · have refused : ¬ (!Tag.isValid tag) = true := by simp [valid]
    rw [TagNodes.insertNext, if_neg refused]
    cases xs with
    | nil =>
      obtain rfl : nodes1 = nodes2 := Option.some.inj write2
      have tail : (if isEmpty taglist = true then some mem.fresh else taglist.tail) =
          last none ([] ++ (mem.fresh, tag) :: ys) := by
        rw [chained.tail]
        simp only [empty rfl, ← DLinked.first_eq_none_iff]
        exact DLinked.ite_last (some mem.fresh) [] ys
      have head : taglist.head = first ys none := chained.head
      dsimp only [last] at write1 ⊢
      rw [head, tail]
      change (modifyIf (Function.update mem.nodes mem.fresh _) (first ys none) _).bind _ = _
      rw [write1]
      rfl
    | cons cell rest =>
      obtain ⟨b, member, isLast⟩ := DLinked.last_cons_mem none cell rest
      obtain ⟨node, here, next⟩ := (DLinked.linked_append.mp chained.linked).1.last_next isLast
      have tail : (if node.next = none then some mem.fresh else taglist.tail) =
          last none (cell :: rest ++ (mem.fresh, tag) :: ys) := by
        rw [next, chained.tail, DLinked.ite_last, DLinked.last_append, last]
      have head : taglist.head = first (cell :: rest ++ (mem.fresh, tag) :: ys) none := chained.head
      rw [isLast] at write1 write2 ⊢
      dsimp only
      rw [here, Option.bind_eq_bind, Option.bind_some, tail, ← head, next, write1]
      change (modifyIf nodes1 (some b) _).bind _ = _
      rw [write2]
      rfl
  · rw [chained.size, List.length_append, List.length_append, List.length_cons]
    dsimp only
    omega
  · intro cell member
    rcases List.mem_append.mp member with before | after
    · exact chained.valid cell (List.mem_append_left _ before)
    · rcases List.mem_cons.mp after with rfl | behind
      · exact valid
      · exact chained.valid cell (List.mem_append_right _ behind)
  · intro a above
    have above' : mem.fresh + 1 ≤ a := above
    have outside : a ∉ addresses (xs ++ ys) := fun member => by
      have below := inside a member
      omega
    dsimp only
    rw [same a (by omega) (fun isLast => outside (lastIn a isLast))
      fun isFirst => outside (firstIn a isFirst)]
    exact unused a (by omega)
  · intro a below unchanged
    obtain ⟨notLast, notFirst⟩ := not_or.mp unchanged
    exact same a (Nat.ne_of_lt below) notLast notFirst

/-- A valid tag is put behind all others. -/
theorem Chained.appendTag (chained : Chained mem taglist cells) (unused : Unused mem)
    (valid : Tag.isValid tag = true) :
    ∃ mem' taglist', appendTag mem taglist tag = some (mem', taglist', .added) ∧
      Chained mem' taglist' (cells ++ [(mem.fresh, tag)]) ∧ Unused mem' ∧
      mem'.fresh = mem.fresh + 1 ∧ SameBut (· ∈ addresses cells) mem mem' := by
  have chained' : Chained mem taglist (cells ++ []) := by rwa [List.append_nil]
  have empty (none_ : cells = []) : isEmpty taglist = true ↔ ([] : List (Nat × LCFGTag)) = [] := by
    rw [isEmpty, chained.size, none_]
    exact iff_of_true rfl rfl
  obtain ⟨mem', taglist', done, after, unused', fresh, same⟩ :=
    chained'.insertNext unused valid empty
  refine ⟨mem', taglist', ?_, after, unused', fresh, fun a below outside => same a below ?_⟩
  · rw [TagNodes.appendTag, chained.tail]
    exact done
  · rintro (isLast | isFirst)
    · have inside := (DLinked.neighbours cells []).1 a isLast
      rw [List.append_nil] at inside
      exact outside inside
    · cases isFirst

/-- A tag between two parts of the list is taken out. -/
theorem Chained.removeTag (chained : Chained mem taglist (xs ++ (a, tag) :: ys))
    (unused : Unused mem) (some_ : isEmpty taglist = false) {tagnode : Option Nat}
    (here : tagnode = some a ∨ tagnode = none ∧ xs = []) :
    ∃ mem' taglist', removeTag mem taglist tagnode =
        some (mem', taglist', some tag, .removed) ∧
      Chained mem' taglist' (xs ++ ys) ∧ Unused mem' ∧ mem'.fresh = mem.fresh ∧
      SameBut (fun b => b = a ∨ last none xs = some b ∨ first ys none = some b) mem mem' := by
  obtain ⟨left, node, right⟩ := DLinked.linked_append.mp chained.linked
  obtain ⟨lastIn, firstIn⟩ := DLinked.neighbours xs ys
  obtain ⟨nodes1, nodes2, write1, write2, linked', kept⟩ := chained.linked.unlink_writes
  refine ⟨{ mem with nodes := Function.update nodes2 a none },
    { head := first (xs ++ ys) none
      tail := last none (xs ++ ys)
      size := (taglist.size + (2 ^ 32 - 1)) % 2 ^ 32 }, ?_, ⟨linked', rfl, rfl, ?_, ?_⟩, ?_, rfl, ?_⟩
  · have found : tagnode.or taglist.head = some a := by
      rcases here with rfl | ⟨rfl, rfl⟩
      · rfl
      · exact chained.head
    have tail : (if first ys none = none then last none xs else taglist.tail) =
        last none (xs ++ ys) := by
      have grown := DLinked.ite_last (last none xs) (xs ++ [(a, tag)]) ys
      rw [List.append_assoc, List.singleton_append] at grown
      rw [chained.tail, grown, DLinked.last_append]
    rw [TagNodes.removeTag, some_, if_neg Bool.false_ne_true, found, Option.bind_eq_bind,
      Option.bind_some, node, Option.bind_eq_bind, Option.bind_some]
    dsimp only
    cases xs with
    | nil =>
      obtain rfl : mem.nodes = nodes1 := Option.some.inj write1
      have head : some a = taglist.head := chained.head.symm
      have tail' : (if first ys none = none then none else taglist.tail) = last none ys := tail
      have write2' : modifyIf mem.nodes (first ys none) (fun next => { next with prev := none }) =
          some nodes2 := write2
      rw [if_pos head, tail']
      change (modifyIf mem.nodes (first ys none) _).bind _ = _
      rw [write2']
      rfl
    | cons cell rest =>
      obtain ⟨b, member, isLast⟩ := DLinked.last_cons_mem none cell rest
      have head : taglist.head = first (cell :: rest ++ ys) none := chained.head
      have notHead : ¬ some a = taglist.head := by
        intro same
        rw [head] at same
        have distinct := chained.linked.nodup
        rw [DLinked.addresses_append, DLinked.addresses_cons] at distinct
        apply (List.nodup_cons.mp (List.nodup_middle.mp distinct)).1
        rw [Option.some.inj same]
        exact List.mem_cons_self
      rw [if_neg notHead, tail, ← head]
      rw [isLast] at write1 write2 ⊢
      change (modifyIf mem.nodes (some b) _).bind _ = _
      rw [write1, Option.bind_some]
      change (modifyIf nodes1 (first ys none) _).bind _ = _
      rw [write2]
      rfl
  · rw [chained.size, List.length_append, List.length_append, List.length_cons]
    dsimp only
    omega
  · intro cell member
    apply chained.valid cell
    exact List.mem_append.mpr ((List.mem_append.mp member).imp_right (List.mem_cons_of_mem _))
  · intro b above
    by_cases same : b = a
    · rw [same]
      exact Function.update_self ..
    · have outside : b ∉ addresses (xs ++ ys) := fun member => by
        apply chained.linked.used _ (unused b above)
        rw [DLinked.addresses_append] at member ⊢
        exact List.mem_append.mpr ((List.mem_append.mp member).imp_right (List.mem_cons_of_mem a))
      dsimp only
      rw [Function.update_of_ne same, kept b same (fun isLast => outside (lastIn b isLast))
        fun isFirst => outside (firstIn b isFirst)]
      exact unused b above
  · intro b below unchanged
    obtain ⟨notHere, notLast, notFirst⟩ := not_or.mp unchanged |>.imp_right not_or.mp
    dsimp only
    rw [Function.update_of_ne notHere, kept b notHere notLast notFirst]

end Chains

/-! ## Loops over a chain -/

section Loops

variable {nodes : Heap LCFGTag} {p : Option Nat} {xs ys : List (Nat × LCFGTag)} {fuel : Nat}

theorem findLoop_eq (linked : Linked nodes p ys none) (wantName : String)
    (enough : ys.length < fuel) :
    findLoop nodes wantName fuel (first ys none) =
      some ((ys.find? fun cell => Tag.match cell.2 wantName).map Prod.fst) := by
  induction ys generalizing p fuel with
  | nil =>
    obtain ⟨fuel, rfl⟩ : ∃ m, fuel = m + 1 := ⟨fuel - 1, by omega⟩
    rfl
  | cons cell rest ih =>
    obtain ⟨a, tag⟩ := cell
    obtain ⟨here, later⟩ := linked
    obtain ⟨fuel, rfl⟩ : ∃ m, fuel = m + 1 := ⟨fuel - 1, by omega⟩
    rw [List.length_cons] at enough
    rw [first, findLoop, here, Option.bind_eq_bind, Option.bind_some, List.find?_cons]
    cases Tag.match tag wantName with
    | true => rfl
    | false => exact ih later (by omega)

/-- The items have been changed, the links have not. -/
structure Rewritten (nodes nodes' : Heap LCFGTag) (cells cells' : List (Nat × LCFGTag)) : Prop where
  linked : Linked nodes' none cells' none
  addresses : addresses cells' = addresses cells
  others : ∀ a, a ∉ DLinked.addresses cells → nodes' a = nodes a

theorem Rewritten.refl {cells : List (Nat × LCFGTag)} (linked : Linked nodes none cells none) :
    Rewritten nodes nodes cells cells := ⟨linked, rfl, fun _ _ => rfl⟩

theorem Rewritten.trans {nodes' nodes'' : Heap LCFGTag} {cells cells' cells'' : List (Nat × LCFGTag)}
    (one : Rewritten nodes nodes' cells cells') (other : Rewritten nodes' nodes'' cells' cells'') :
    Rewritten nodes nodes'' cells cells'' := by
  refine ⟨other.linked, other.addresses.trans one.addresses, fun a absent => ?_⟩
  have absent' : a ∉ DLinked.addresses cells' := one.addresses ▸ absent
  rw [other.others a absent', one.others a absent]

theorem Rewritten.length {nodes' : Heap LCFGTag} {cells cells' : List (Nat × LCFGTag)}
    (rewritten : Rewritten nodes nodes' cells cells') : cells'.length = cells.length := by
  have same := congrArg List.length rewritten.addresses
  rwa [DLinked.addresses, DLinked.addresses, List.length_map, List.length_map] at same

theorem Rewritten.first {nodes' : Heap LCFGTag} {cells cells' : List (Nat × LCFGTag)}
    (rewritten : Rewritten nodes nodes' cells cells') :
    DLinked.first cells' none = DLinked.first cells none := by
  rw [DLinked.first_eq_head?, DLinked.first_eq_head?, rewritten.addresses]

/-- One tag is replaced by another. -/
theorem rewrite_tag {a : Nat} {tag : LCFGTag} (linked : Linked nodes none (xs ++ (a, tag) :: ys) none)
    (newTag : LCFGTag) :
    ∃ nodes', modify nodes a (fun cur => { cur with data := newTag }) = some nodes' ∧
      Rewritten nodes nodes' (xs ++ (a, tag) :: ys) (xs ++ (a, newTag) :: ys) := by
  have inside : a ∈ addresses (xs ++ (a, tag) :: ys) := by simp
  obtain ⟨nodes', write, changed, same⟩ := DLinked.modifyIf_spec nodes (some a)
      (fun cur => { cur with data := newTag }) fun b isHere => by
      obtain rfl := Option.some.inj isHere
      exact linked.used inside
  refine ⟨nodes', write, ⟨?_, by simp, fun b absent => ?_⟩⟩
  · apply linked.setData
    · exact fun node here => changed a node rfl here
    · exact fun b other => same b fun isHere => other (Option.some.inj isHere).symm
  · apply same
    rintro ⟨⟩
    exact absent inside

theorem replaceLoop_spec (xs : List (Nat × LCFGTag)) (oldName newName : String) (global : Bool)
    (linked : Linked nodes none (xs ++ ys) none)
    (valid : ∀ cell ∈ ys, Tag.isValid cell.2 = true) (enough : ys.length < fuel)
    (change : LCFGChange) :
    ∃ nodes' ys' change', replaceLoop oldName newName global fuel nodes (first ys none) change =
        some (nodes', change') ∧
      Rewritten nodes nodes' (xs ++ ys) (xs ++ ys') ∧
      ∀ cell ∈ ys', Tag.isValid cell.2 = true := by
  induction ys generalizing xs nodes fuel change with
  | nil =>
    obtain ⟨fuel, rfl⟩ : ∃ m, fuel = m + 1 := ⟨fuel - 1, by omega⟩
    exact ⟨nodes, [], change, rfl, .refl linked, valid⟩
  | cons cell rest ih =>
    obtain ⟨a, tag⟩ := cell
    obtain ⟨fuel, rfl⟩ : ∃ m, fuel = m + 1 := ⟨fuel - 1, by omega⟩
    rw [List.length_cons] at enough
    have here := (DLinked.linked_append.mp linked).2.1
    have moved (newTag : LCFGTag) : xs ++ (a, newTag) :: rest = xs ++ [(a, newTag)] ++ rest := by simp
    have valid' : ∀ cell ∈ rest, Tag.isValid cell.2 = true := fun cell member =>
      valid cell (List.mem_cons_of_mem _ member)
    -- the rest of the loop begins behind the tag which stands here now
    have later (newTag : LCFGTag) (change : LCFGChange) {nodes' : Heap LCFGTag}
        (good : Tag.isValid newTag = true)
        (rewritten : Rewritten nodes nodes' (xs ++ (a, tag) :: rest) (xs ++ (a, newTag) :: rest)) :
        ∃ nodes'' ys' change', replaceLoop oldName newName global fuel nodes' (first rest none)
            change = some (nodes'', change') ∧
          Rewritten nodes nodes'' (xs ++ (a, tag) :: rest) (xs ++ ys') ∧
          ∀ cell ∈ ys', Tag.isValid cell.2 = true := by
      have linked' := rewritten.linked
      rw [moved] at linked'
      obtain ⟨nodes'', ys', change', done, rewritten', good'⟩ :=
        ih _ linked' valid' (by omega : rest.length < fuel) change
      rw [← moved, List.append_assoc, List.singleton_append] at rewritten'
      refine ⟨nodes'', (a, newTag) :: ys', change', done, rewritten.trans rewritten', ?_⟩
      intro cell member
      rcases List.mem_cons.mp member with rfl | inside
      · exact good
      · exact good' cell inside
    rw [first, replaceLoop, here, Option.bind_eq_bind, Option.bind_some]
    split
    case isTrue =>
      cases made : Tag.fromString newName with
      | error msg => exact ⟨nodes, _, .error, rfl, .refl linked, valid⟩
      | ok newTag =>
        have good := Tag.fromString_valid made
        obtain ⟨nodes', write, rewritten⟩ := rewrite_tag linked newTag
        dsimp only
        rw [write, Option.bind_eq_bind, Option.bind_some]
        cases global with
        | true => exact later newTag .replaced good rewritten
        | false =>
          refine ⟨nodes', (a, newTag) :: rest, .replaced, rfl, rewritten, ?_⟩
          intro cell member
          rcases List.mem_cons.mp member with rfl | inside
          · exact good
          · exact valid' cell inside
    case isFalse => exact later tag change (valid _ List.mem_cons_self) (.refl linked)

/-- `lcfgtag_compare` is what the tags are sorted by. -/
def tagAfter (tag other : LCFGTag) : Bool := Tag.compare tag other > 0

theorem tagAfter_asymm (tag other : LCFGTag) (later : tagAfter tag other = true) :
    tagAfter other tag = false :=
  BubbleSort.compare_asymm strcmp_preorder tag.name other.name later

/-- A pass over the nodes is a pass over their tags. -/
theorem sortPass_spec (xs : List (Nat × LCFGTag)) {a : Nat} {tag : LCFGTag}
    (linked : Linked nodes none (xs ++ (a, tag) :: ys) none) (enough : ys.length + 1 < fuel)
    (swapped : Bool) :
    ∃ nodes' cells', sortPass fuel nodes (some a) swapped =
        some (nodes', swapped || (BubbleSort.passFrom tagAfter tag (DLinked.items ys)).2) ∧
      Rewritten nodes nodes' (xs ++ (a, tag) :: ys) (xs ++ cells') ∧
      DLinked.items cells' = (BubbleSort.passFrom tagAfter tag (DLinked.items ys)).1 := by
  induction ys generalizing xs nodes a tag fuel swapped with
  | nil =>
    obtain ⟨fuel, rfl⟩ : ∃ m, fuel = m + 1 := ⟨fuel - 1, by omega⟩
    have here := (DLinked.linked_append.mp linked).2.1
    refine ⟨nodes, [(a, tag)], ?_, .refl linked, rfl⟩
    rw [sortPass, here]
    exact congrArg (fun swapped => some (nodes, swapped)) (Bool.or_false swapped).symm
  | cons cell rest ih =>
    obtain ⟨b, next⟩ := cell
    obtain ⟨fuel, rfl⟩ : ∃ m, fuel = m + 1 := ⟨fuel - 1, by omega⟩
    rw [List.length_cons] at enough
    obtain ⟨here, there, -⟩ := (DLinked.linked_append.mp linked).2
    have moved (one other : LCFGTag) : xs ++ (a, one) :: (b, other) :: rest =
        xs ++ [(a, one)] ++ (b, other) :: rest := by simp
    rw [sortPass, here, Option.bind_eq_bind, Option.bind_some]
    dsimp only [first]
    rw [there, Option.bind_eq_bind, Option.bind_some]
    have passes : BubbleSort.passFrom tagAfter tag (DLinked.items ((b, next) :: rest)) =
        if tagAfter tag next then (next :: (BubbleSort.passFrom tagAfter tag (DLinked.items rest)).1, true)
        else (tag :: (BubbleSort.passFrom tagAfter next (DLinked.items rest)).1,
          (BubbleSort.passFrom tagAfter next (DLinked.items rest)).2) := rfl
    rw [passes]
    cases wrong : tagAfter tag next with
    | true =>
      obtain ⟨nodes1, write1, rewritten1⟩ := rewrite_tag linked next
      have linked1 := rewritten1.linked
      rw [moved] at linked1
      obtain ⟨nodes2, write2, rewritten2⟩ := rewrite_tag linked1 tag
      obtain ⟨nodes', cells', done, rewritten, items⟩ :=
        ih _ rewritten2.linked (by omega : rest.length + 1 < fuel) true
      rw [← moved, ← moved] at rewritten2
      rw [← moved, List.append_assoc, List.singleton_append] at rewritten
      refine ⟨nodes', (a, next) :: cells', ?_, (rewritten1.trans rewritten2).trans rewritten, ?_⟩
      · rw [if_pos (of_decide_eq_true wrong), write1, Option.bind_some, write2, Option.bind_some, done]
        simp
      · rw [if_pos rfl, ← items]
        rfl
    | false =>
      have linked1 := linked
      rw [moved] at linked1
      obtain ⟨nodes', cells', done, rewritten, items⟩ :=
        ih _ linked1 (by omega : rest.length + 1 < fuel) swapped
      rw [← moved, List.append_assoc, List.singleton_append] at rewritten
      refine ⟨nodes', (a, tag) :: cells', ?_, rewritten, ?_⟩
      · rw [if_neg (of_decide_eq_false wrong), done]
        rfl
      · rw [if_neg Bool.false_ne_true, ← items]
        rfl

theorem sortLoop_spec {cells : List (Nat × LCFGTag)} (linked : Linked nodes none cells none)
    (enough : cells.length < fuel) {rounds : Nat}
    (more : BubbleSort.inversions tagAfter (DLinked.items cells) < rounds) :
    ∃ nodes' cells', sortLoop fuel (first cells none) rounds nodes = some nodes' ∧
      Rewritten nodes nodes' cells cells' ∧
      DLinked.items cells' = BubbleSort.rounds tagAfter rounds (DLinked.items cells) := by
  induction rounds generalizing nodes cells with
  | zero => omega
  | succ rounds ih =>
    -- one pass, from the head
    obtain ⟨nodes1, cells1, done, rewritten, items⟩ : ∃ nodes1 cells1,
        sortPass fuel nodes (first cells none) false =
          some (nodes1, (BubbleSort.pass tagAfter (DLinked.items cells)).2) ∧
        Rewritten nodes nodes1 cells cells1 ∧
        DLinked.items cells1 = (BubbleSort.pass tagAfter (DLinked.items cells)).1 := by
      cases cells with
      | nil =>
        obtain ⟨fuel, rfl⟩ : ∃ m, fuel = m + 1 := ⟨fuel - 1, by omega⟩
        exact ⟨nodes, [], rfl, .refl linked, rfl⟩
      | cons cell rest =>
        rw [List.length_cons] at enough
        obtain ⟨nodes1, cells1, done, rewritten, items⟩ :=
          sortPass_spec [] linked enough false
        rw [Bool.false_or] at done
        exact ⟨nodes1, cells1, done, rewritten, items⟩
    rw [sortLoop, done, Option.bind_eq_bind, Option.bind_some, BubbleSort.rounds]
    dsimp only
    cases swapped : (BubbleSort.pass tagAfter (DLinked.items cells)).2 with
    | true =>
      have fewer := BubbleSort.pass_inversions tagAfter_asymm swapped
      have length := rewritten.length
      obtain ⟨nodes', cells', done', rewritten', items'⟩ := ih rewritten.linked (by omega)
        (by rw [items]; omega)
      refine ⟨nodes', cells', ?_, rewritten.trans rewritten', ?_⟩
      · rw [if_pos rfl, ← rewritten.first, done']
      · rw [if_pos rfl, items', items]
    | false =>
      exact ⟨nodes1, cells1, by rw [if_neg Bool.false_ne_true]; rfl, rewritten, by
        rw [if_neg Bool.false_ne_true, items]⟩

end Loops

/-! ## What the operations do to a list -/

section Lists

variable {mem : TagMemory} {taglist : TagListHead} {cells : List (Nat × LCFGTag)}

/-- A list whose tags have been changed. -/
theorem Chained.rewritten (chained : Chained mem taglist cells) (unused : Unused mem)
    {nodes' : Heap LCFGTag} {cells' : List (Nat × LCFGTag)}
    (rewritten : Rewritten mem.nodes nodes' cells cells')
    (valid : ∀ cell ∈ cells', Tag.isValid cell.2 = true) :
    Chained { mem with nodes := nodes' } taglist cells' ∧
      Unused { mem with nodes := nodes' } := by
  refine ⟨⟨rewritten.linked, ?_, ?_, ?_, valid⟩, fun a above => ?_⟩
  · rw [chained.head, rewritten.first]
  · rw [chained.tail, DLinked.last_eq_getLast?, DLinked.last_eq_getLast?, rewritten.addresses]
  · rw [chained.size, rewritten.length]
  · have absent : a ∉ addresses cells := fun member =>
      chained.linked.used member (unused a above)
    exact (rewritten.others a absent).trans (unused a above)

theorem contains_eq (chained : Chained mem taglist cells) (unused : Unused mem) (name : String) :
    contains mem taglist name =
      some (!isEmpty taglist && (DLinked.items cells).any fun tag => Tag.match tag name) := by
  rw [contains, findNode]
  cases isEmpty taglist with
  | true => rfl
  | false =>
    have enough : cells.length < mem.fresh + 1 := Nat.lt_succ_of_le (chained.length_le unused)
    rw [if_neg Bool.false_ne_true, chained.head, findLoop_eq chained.linked name enough]
    change some (Option.isSome (Option.map Prod.fst _)) = some ((DLinked.items cells).any _)
    rw [Option.isSome_map, List.isSome_find?, DLinked.items, List.any_map]
    rfl

theorem valid_items {mem : TagMemory} (chained : Chained mem taglist cells) :
    ∀ tag ∈ DLinked.items cells, Tag.isValid tag = true := by
  intro tag member
  obtain ⟨cell, inside, rfl⟩ := List.mem_map.mp member
  exact chained.valid cell inside

theorem Chained.sort (chained : Chained mem taglist cells) (unused : Unused mem) :
    ∃ mem' cells', sort mem taglist = some mem' ∧ Chained mem' taglist cells' ∧ Unused mem' ∧
      cells'.length = cells.length ∧ (DLinked.items cells').Perm (DLinked.items cells) := by
  rw [TagNodes.sort]
  by_cases short : taglist.size < 2
  · exact ⟨mem, cells, if_pos short, chained, unused, rfl, .refl _⟩
  · have few := chained.length_le unused
    have length : (DLinked.items cells).length = cells.length := List.length_map _
    have pairs : BubbleSort.inversions tagAfter (DLinked.items cells) ≤ _ :=
      BubbleSort.inversions_le (DLinked.items cells)
    have more : BubbleSort.inversions tagAfter (DLinked.items cells) < mem.fresh * mem.fresh + 1 := by
      have squares := Nat.mul_le_mul few few
      rw [length] at pairs
      omega
    obtain ⟨nodes', cells', done, rewritten, items⟩ :=
      sortLoop_spec chained.linked (Nat.lt_succ_of_le few) more
    have perm : (DLinked.items cells').Perm (DLinked.items cells) := by
      rw [items]
      exact BubbleSort.rounds_perm _ _
    have valid : ∀ cell ∈ cells', Tag.isValid cell.2 = true := fun cell member =>
      valid_items chained cell.2 (perm.subset (List.mem_map_of_mem member))
    obtain ⟨chained', unused'⟩ := chained.rewritten unused rewritten valid
    refine ⟨_, cells', ?_, chained', unused', ?_, perm⟩
    · rw [if_neg short, chained.head, done]
      rfl
    · have same := perm.length_eq
      rwa [DLinked.items, DLinked.items, List.length_map, List.length_map] at same

theorem Chained.mutateReplace (chained : Chained mem taglist cells) (unused : Unused mem)
    (oldName newName : String) (global : Bool) :
    ∃ mem' cells' change msg,
      mutateReplace mem taglist oldName newName global = some (mem', change, msg) ∧
      Chained mem' taglist cells' ∧ Unused mem' ∧ cells'.length = cells.length := by
  rw [TagNodes.mutateReplace]
  split
  case isTrue => exact ⟨mem, cells, _, _, rfl, chained, unused, rfl⟩
  case isFalse =>
    split
    case isTrue => exact ⟨mem, cells, _, _, rfl, chained, unused, rfl⟩
    case isFalse =>
      obtain ⟨nodes', cells', change, done, rewritten, valid⟩ :=
        replaceLoop_spec [] oldName newName global chained.linked chained.valid
          (Nat.lt_succ_of_le (chained.length_le unused)) .none
      obtain ⟨chained', unused'⟩ := chained.rewritten unused rewritten valid
      refine ⟨_, cells', change, none, ?_, chained', unused', rewritten.length⟩
      rw [chained.head, done]
      rfl

/-! ## When the links and the size agree -/

/-- The links visit the addresses, and everything which the list keeps agrees with that. -/
structure Visits (mem : TagMemory) (taglist : TagListHead) (visited : List Nat) : Prop where
  forth : Follows mem.nodes Node.next taglist.head visited none
  back : Follows mem.nodes Node.prev taglist.tail visited.reverse none
  size : visited.length = taglist.size
  ends : visited.getLast? = taglist.tail
  headPrev : ∀ a node, taglist.head = some a → mem.nodes a = some node → node.prev = none
  tailNext : ∀ a node, taglist.tail = some a → mem.nodes a = some node → node.next = none
  headNull : taglist.head = none ↔ isEmpty taglist = true
  tailNull : taglist.tail = none ↔ isEmpty taglist = true
  valid : ∀ a ∈ visited, ∀ node, mem.nodes a = some node → Tag.isValid node.data = true

def Coherent (mem : TagMemory) (taglist : TagListHead) : Prop := ∃ visited, Visits mem taglist visited

theorem isEmpty_iff (chained : Chained mem taglist cells) (few : cells.length < 2 ^ 32) :
    isEmpty taglist = true ↔ cells = [] := by
  rw [isEmpty, chained.size, Nat.mod_eq_of_lt few, beq_iff_eq, List.length_eq_zero_iff]

theorem Chained.visits (chained : Chained mem taglist cells) (few : cells.length < 2 ^ 32) :
    Visits mem taglist (addresses cells) := by
  obtain ⟨forth, back⟩ := chained.linked.follows
  have empty := isEmpty_iff chained few
  refine ⟨?_, ?_, ?_, ?_, ?_, ?_, ?_, ?_, ?_⟩
  · rw [chained.head]
    exact forth
  · rw [chained.tail]
    exact back
  · rw [chained.size, Nat.mod_eq_of_lt few, addresses, List.length_map]
  · rw [chained.tail, DLinked.last_eq_getLast?]
  · intro a node head here
    rw [chained.head] at head
    cases cells with
    | nil => cases head
    | cons cell cells =>
      obtain rfl := Option.some.inj head
      obtain rfl := Option.some.inj (chained.linked.1.symm.trans here)
      rfl
  · intro a node tail here
    rw [chained.tail] at tail
    obtain ⟨node', here', next⟩ := chained.linked.last_next tail
    obtain rfl := Option.some.inj (here'.symm.trans here)
    exact next
  · rw [chained.head, empty, DLinked.first_eq_none_iff]
  · rw [chained.tail, empty, DLinked.last_eq_getLast?, List.getLast?_eq_none_iff, addresses,
      List.map_eq_nil_iff]
  · intro a member node here
    obtain ⟨⟨b, tag⟩, inside, rfl⟩ := List.mem_map.mp member
    obtain ⟨prev, next, there⟩ := chained.linked.data inside
    obtain rfl := Option.some.inj (there.symm.trans here)
    exact chained.valid _ inside

/-- The size is the only thing which can go wrong. -/
theorem Chained.coherent_iff (chained : Chained mem taglist cells) :
    Coherent mem taglist ↔ cells.length < 2 ^ 32 := by
  constructor
  · rintro ⟨visited, visits⟩
    have forth := visits.forth
    rw [chained.head] at forth
    obtain rfl := forth.unique chained.linked.follows.1
    have size := visits.size
    rw [chained.size, addresses, List.length_map] at size
    omega
  · exact fun few => ⟨addresses cells, chained.visits few⟩

end Lists

/-! ## Runs -/

/-- A call of one of the operations, for an insertion or a removal with a node, or none for
the head. -/
inductive TagOp where
  | insertNext (tagnode : Option Nat) (tag : Option LCFGTag)
  | removeTag (tagnode : Option Nat)
  | mutateAppend (tagname : String)
  | mutatePrepend (tagname : String)
  | mutateAdd (tagname : String)
  | mutateReplace (oldName newName : String) (global : Bool)
  | sort

/-- The node is one of the list. -/
def holds (mem : TagMemory) (taglist : TagListHead) (tagnode : Option Nat) : Bool :=
  tagnode.all fun a => (DLinked.walk mem.nodes (mem.fresh + 1) taglist.head).contains a

/-- What is left after a call; one with a node of another list is not made. -/
def TagOp.run (mem : TagMemory) (taglist : TagListHead) :
    TagOp → Option (TagMemory × TagListHead)
  | .insertNext tagnode tag =>
    if holds mem taglist tagnode then
      (TagNodes.insertNext mem taglist tagnode tag).map fun (mem, taglist, _) => (mem, taglist)
    else some (mem, taglist)
  | .removeTag tagnode =>
    if holds mem taglist tagnode then
      (TagNodes.removeTag mem taglist tagnode).map fun (mem, taglist, _) => (mem, taglist)
    else some (mem, taglist)
  | .mutateAppend tagname =>
    (TagNodes.mutateAppend mem taglist tagname).map fun (mem, taglist, _) => (mem, taglist)
  | .mutatePrepend tagname =>
    (TagNodes.mutatePrepend mem taglist tagname).map fun (mem, taglist, _) => (mem, taglist)
  | .mutateAdd tagname =>
    (TagNodes.mutateAdd mem taglist tagname).map fun (mem, taglist, _) => (mem, taglist)
  | .mutateReplace oldName newName global =>
    (TagNodes.mutateReplace mem taglist oldName newName global).map fun (mem, _) => (mem, taglist)
  | .sort => (TagNodes.sort mem taglist).map fun mem => (mem, taglist)

/-- Whether a call puts a tag into the list. -/
def TagOp.inserts (mem : TagMemory) (taglist : TagListHead) : TagOp → Bool
  | .insertNext tagnode tag => holds mem taglist tagnode && tag.any Tag.isValid
  | .mutateAppend tagname | .mutatePrepend tagname => (Tag.fromString tagname).toBool
  | .mutateAdd tagname =>
    contains mem taglist tagname == some false && (Tag.fromString tagname).toBool
  | .removeTag _ | .mutateReplace .. | .sort => false

/-- One call after another; nothing happens after a fault. -/
def step (s : Option (TagMemory × TagListHead)) (op : TagOp) : Option (TagMemory × TagListHead) :=
  s.bind fun (mem, taglist) => op.run mem taglist

/-- There has been no fault, and the links and the size agree. -/
def CoherentState (s : Option (TagMemory × TagListHead)) : Prop :=
  ∃ mem taglist, s = some (mem, taglist) ∧ Coherent mem taglist

/-- The size can be counted up, if the call puts a tag into the list. -/
def Counts (s : Option (TagMemory × TagListHead)) (op : TagOp) : Prop :=
  ∀ memlist ∈ s, op.inserts memlist.1 memlist.2 = true → memlist.2.size + 1 < 2 ^ 32

/-- There has been no fault, and the list has so many cells. -/
def Leaves (length : Nat → Prop) (s : Option (TagMemory × TagListHead)) : Prop :=
  ∃ mem taglist cells, s = some (mem, taglist) ∧ Unused mem ∧ Chained mem taglist cells ∧
    length cells.length

section Calls

variable {mem : TagMemory} {taglist : TagListHead} {cells : List (Nat × LCFGTag)}
  (chained : Chained mem taglist cells) (unused : Unused mem)
include chained unused

theorem holds_iff {a : Nat} : holds mem taglist (some a) = true ↔ a ∈ addresses cells := by
  rw [holds, Option.all_some, chained.head,
    chained.linked.walk (Nat.le_succ_of_le (chained.length_le unused)), List.contains_iff_mem]

/-- A call which leaves the list as it is. -/
theorem leaves_same : Leaves (· ≤ cells.length) (some (mem, taglist)) :=
  ⟨mem, taglist, cells, rfl, unused, chained, Nat.le_refl _⟩

theorem appendTag_leaves {tag : LCFGTag} (valid : Tag.isValid tag = true) :
    Leaves (· = cells.length + 1)
      ((appendTag mem taglist tag).map fun (mem, taglist, _) => (mem, taglist)) := by
  obtain ⟨mem', taglist', done, after, unused', -⟩ := chained.appendTag unused valid
  exact ⟨mem', taglist', _, by rw [done]; rfl, unused', after, List.length_append⟩

variable (few : cells.length < 2 ^ 32)
include few

theorem insertNext_leaves {tag : LCFGTag} (valid : Tag.isValid tag = true) {tagnode : Option Nat}
    (held : holds mem taglist tagnode = true) :
    Leaves (· = cells.length + 1)
      ((TagNodes.insertNext mem taglist tagnode (some tag)).map
        fun (mem, taglist, _) => (mem, taglist)) := by
  -- the part of the list up to the node
  obtain ⟨xs, ys, rfl, isLast, empty⟩ : ∃ xs ys, cells = xs ++ ys ∧ tagnode = last none xs ∧
      (xs = [] → (isEmpty taglist = true ↔ ys = [])) := by
    cases tagnode with
    | none =>
      exact ⟨[], cells, rfl, rfl, fun _ => isEmpty_iff chained few⟩
    | some a =>
      obtain ⟨⟨b, tag'⟩, inside, rfl⟩ := List.mem_map.mp ((holds_iff chained unused).mp held)
      obtain ⟨before, behind, rfl⟩ := List.append_of_mem inside
      refine ⟨before ++ [(b, tag')], behind, by simp, ?_, by simp⟩
      rw [DLinked.last_append]
      rfl
  obtain ⟨mem', taglist', done, after, unused', -⟩ := chained.insertNext unused valid empty
  refine ⟨mem', taglist', _, ?_, unused', after, ?_⟩
  · rw [isLast, done]
    rfl
  · rw [List.length_append, List.length_append, List.length_cons, Nat.add_assoc]

theorem removeTag_leaves {tagnode : Option Nat} (held : holds mem taglist tagnode = true) :
    Leaves (· ≤ cells.length)
      ((TagNodes.removeTag mem taglist tagnode).map fun (mem, taglist, _) => (mem, taglist)) := by
  have whole := leaves_same chained unused
  cases empty : isEmpty taglist with
  | true =>
    rw [TagNodes.removeTag, if_pos empty]
    exact whole
  | false =>
    obtain ⟨xs, a, tag, ys, rfl, here⟩ : ∃ xs a tag ys, cells = xs ++ (a, tag) :: ys ∧
        (tagnode = some a ∨ tagnode = none ∧ xs = []) := by
      cases tagnode with
      | none =>
        cases cells with
        | nil =>
          rw [(isEmpty_iff chained few).mpr rfl] at empty
          cases empty
        | cons cell cells => exact ⟨[], cell.1, cell.2, cells, rfl, .inr ⟨rfl, rfl⟩⟩
      | some a =>
        obtain ⟨⟨b, tag⟩, inside, rfl⟩ := List.mem_map.mp ((holds_iff chained unused).mp held)
        obtain ⟨before, behind, rfl⟩ := List.append_of_mem inside
        exact ⟨before, b, tag, behind, rfl, .inl rfl⟩
    obtain ⟨mem', taglist', done, after, unused', -⟩ := chained.removeTag unused empty here
    refine ⟨mem', taglist', _, by rw [done]; rfl, unused', after, ?_⟩
    rw [List.length_append, List.length_append, List.length_cons]
    omega

omit chained unused few in
theorem mutateWith_leaves {put : TagMemory → TagListHead → LCFGTag →
      Option (TagMemory × TagListHead × LCFGChange)} {n : Nat}
    (same : Leaves (· ≤ n) (some (mem, taglist)))
    (puts : ∀ tag, Tag.isValid tag = true →
      Leaves (· = n + 1) ((put mem taglist tag).map fun (mem, taglist, _) => (mem, taglist)))
    (tagname : String) :
    Leaves (fun after => if (Tag.fromString tagname).toBool then after = n + 1 else after ≤ n)
      ((mutateWith put mem taglist tagname).map fun (mem, taglist, _) => (mem, taglist)) := by
  rw [mutateWith]
  cases made : Tag.fromString tagname with
  | error msg => exact same
  | ok newTag =>
    dsimp only
    rw [Option.map_map]
    exact puts newTag (Tag.fromString_valid made)

/-- No call goes wrong, and the list grows only when a tag is put into it. -/
theorem run_leaves (op : TagOp) :
    Leaves (fun after => if op.inserts mem taglist then after = cells.length + 1
      else after ≤ cells.length) (op.run mem taglist) := by
  have same := leaves_same chained unused
  cases op with
  | insertNext tagnode tag =>
    rw [TagOp.run, TagOp.inserts]
    cases held : holds mem taglist tagnode with
    | false => exact same
    | true =>
      rw [Bool.true_and, if_pos rfl]
      cases tag with
      | none => exact same
      | some tag =>
        rw [Option.any_some]
        cases valid : Tag.isValid tag with
        | true => exact insertNext_leaves chained unused few valid held
        | false =>
          rw [TagNodes.insertNext, valid]
          exact same
  | removeTag tagnode =>
    rw [TagOp.run, TagOp.inserts]
    cases held : holds mem taglist tagnode with
    | false => exact same
    | true => exact removeTag_leaves chained unused few held
  | mutateAppend tagname =>
    exact mutateWith_leaves same (fun tag valid => appendTag_leaves chained unused valid) tagname
  | mutatePrepend tagname =>
    exact mutateWith_leaves same
      (fun tag valid => insertNext_leaves chained unused few valid rfl) tagname
  | mutateAdd tagname =>
    rw [TagOp.run, TagOp.inserts, TagNodes.mutateAdd, contains_eq chained unused,
      Option.bind_eq_bind, Option.bind_some]
    cases !isEmpty taglist && (DLinked.items cells).any fun tag => Tag.match tag tagname with
    | true => exact same
    | false =>
      exact mutateWith_leaves same (fun tag valid => appendTag_leaves chained unused valid) tagname
  | mutateReplace oldName newName global =>
    obtain ⟨mem', cells', change, msg, done, chained', unused', length⟩ :=
      chained.mutateReplace unused oldName newName global
    refine ⟨mem', taglist, cells', ?_, unused', chained', Nat.le_of_eq length⟩
    rw [TagOp.run, done]
    rfl
  | sort =>
    obtain ⟨mem', cells', done, chained', unused', length, -⟩ := chained.sort unused
    refine ⟨mem', taglist, cells', ?_, unused', chained', Nat.le_of_eq length⟩
    rw [TagOp.run, done]
    rfl

end Calls

/-- A list whose cells can be counted. -/
def Sound (s : Option (TagMemory × TagListHead)) : Prop := Leaves (· < 2 ^ 32) s

theorem Sound.coherent {s : Option (TagMemory × TagListHead)} (sound : Sound s) :
    CoherentState s := by
  obtain ⟨mem, taglist, cells, rfl, -, chained, few⟩ := sound
  exact ⟨mem, taglist, rfl, chained.coherent_iff.mpr few⟩

theorem Sound.step {s : Option (TagMemory × TagListHead)} (sound : Sound s) (op : TagOp)
    (counts : Counts s op) : Sound (step s op) := by
  obtain ⟨mem, taglist, cells, rfl, unused, chained, few⟩ := sound
  have counts := counts _ rfl
  rw [chained.size, Nat.mod_eq_of_lt few] at counts
  obtain ⟨mem', taglist', cells', done, unused', chained', length⟩ :=
    run_leaves chained unused few op
  refine ⟨mem', taglist', cells', done, unused', chained', ?_⟩
  split at length
  case isTrue inserts =>
    rw [length]
    exact counts inserts
  case isFalse => exact Nat.lt_of_le_of_lt length few

theorem Sound.breaks {s : Option (TagMemory × TagListHead)} (sound : Sound s) (op : TagOp)
    (refused : ¬ Counts s op) : ¬ CoherentState (TagNodes.step s op) := by
  obtain ⟨mem, taglist, cells, rfl, unused, chained, few⟩ := sound
  obtain ⟨mem', taglist', cells', done, -, chained', length⟩ := run_leaves chained unused few op
  rintro ⟨mem'', taglist'', same, coherent⟩
  obtain ⟨rfl, rfl⟩ : mem' = mem'' ∧ taglist' = taglist'' := by
    have both := Option.some.inj (done.symm.trans same)
    exact ⟨congrArg Prod.fst both, congrArg Prod.snd both⟩
  have few' := chained'.coherent_iff.mp coherent
  apply refused
  rintro _ ⟨⟩ inserts
  dsimp only at inserts ⊢
  rw [if_pos inserts] at length
  rw [chained.size, Nat.mod_eq_of_lt few, ← length]
  exact few'

theorem sound_new {mem : TagMemory} (unused : Unused mem) : Sound (some (mem, {})) :=
  ⟨mem, {}, [], rfl, unused, ⟨trivial, rfl, rfl, rfl, nofun⟩, by decide⟩

/-- The links and the size of a list, new at first, agree after all operations if and only if
no tag is put into a list whose size is the largest one. -/
theorem run_links_agree_iff {mem : TagMemory} (unused : Unused mem) (ops : List TagOp) :
    Run.Always step CoherentState (some (mem, {})) ops ↔
      Run.Every step Counts (some (mem, {})) ops := by
  apply Run.always_iff_every_of_invariant (I := Sound)
  · exact fun s sound => sound.coherent
  · exact fun s op sound counts => sound.step op counts
  · exact fun s op sound refused => sound.breaks op refused
  · exact sound_new unused

theorem unused_new : Unused {} := fun _ _ => rfl

theorem run_links_agree_three :
    Run.Always step CoherentState (some ({}, {}))
      [.mutateAppend "dhcp", .mutatePrepend "lcfg", .insertNext (some 0) (some ⟨"ntp", by decide⟩),
        .sort, .removeTag none] := by
  apply (run_links_agree_iff unused_new _).mpr
  refine ⟨?_, ?_, ?_, ?_, ?_, trivial⟩ <;> rintro _ ⟨⟩ <;> decide

/-- A list which is only appended to. -/
theorem appends_leave (n : Nat) :
    Leaves (· = n) ((List.replicate n (TagOp.mutateAppend "lcfg")).foldl step (some ({}, {}))) := by
  induction n with
  | zero => exact ⟨{}, {}, [], rfl, unused_new, ⟨trivial, rfl, rfl, rfl, nofun⟩, rfl⟩
  | succ n ih =>
    obtain ⟨mem, taglist, cells, done, unused, chained, rfl⟩ := ih
    have next := mutateWith_leaves (leaves_same chained unused)
      (fun tag valid => appendTag_leaves chained unused valid) "lcfg"
    have made : (Tag.fromString "lcfg").toBool = true := by decide
    rw [made] at next
    rw [List.replicate_succ', List.foldl_append, done]
    exact next

theorem too_many_tags_not_coherent :
    ¬ ∀ ops, Run.Always step CoherentState (some ({}, {})) ops := by
  intro always
  obtain ⟨n, large⟩ : ∃ n, n = 2 ^ 32 := ⟨_, rfl⟩
  obtain ⟨mem, taglist, coherent⟩ := (Run.always_iff _ _).mp
    (always (List.replicate n (.mutateAppend "lcfg"))) _ [] (List.append_nil _).symm
  obtain ⟨mem', taglist', cells, done, -, chained, rfl⟩ := appends_leave n
  rw [done] at coherent
  obtain ⟨⟨rfl, rfl⟩, coherent⟩ := coherent.imp_left fun same => Prod.mk.inj (Option.some.inj same)
  have few := chained.coherent_iff.mp coherent
  omega

end TagNodes

end Lcfg
