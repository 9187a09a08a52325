import Mathlib.Data.List.Basic
import Mathlib.Data.List.Nodup
import Mathlib.Logic.Function.Basic

/-!
# Doubly linked nodes

Nodes in a memory, each with an item and links to the nodes before and behind it. `Linked`
says which cells, addresses with their items, are chained in both directions.

## Main results

* `Linked.follows`, `Linked.unique`: the links visit the cells in both directions, and no others.
* `Linked.insert`, `Linked.unlink`: what has to be written to put a cell into a chain, and to
  take one out; `Linked.insert_writes`, `Linked.unlink_writes` write it.
* `Linked.setData`: an item may be replaced without regard to the links.
-/

namespace DLinked

structure Node (α : Type) where
  data : α
  prev : Option Nat := none
  next : Option Nat := none
deriving DecidableEq, Repr

/-- The node at each address which is in use. -/
abbrev Heap (α : Type) := Nat → Option (Node α)

variable {α : Type} {heap heap' : Heap α} {p n q : Option Nat} {cells xs ys : List (Nat × α)}
  {a : Nat} {x y : α}

/-! ## Following links -/

/-- A link leads from `start` through the addresses to `stop`. -/
def Follows (heap : Heap α) (link : Node α → Option Nat) :
    Option Nat → List Nat → Option Nat → Prop
  | start, [], stop => start = stop
  | start, a :: rest, stop =>
    start = some a ∧ ∃ node, heap a = some node ∧ Follows heap link (link node) rest stop

section Follows

variable {link : Node α → Option Nat} {start stop : Option Nat} {as bs : List Nat}

theorem follows_append :
    Follows heap link start (as ++ bs) stop ↔
      ∃ mid, Follows heap link start as mid ∧ Follows heap link mid bs stop := by
  induction as generalizing start with
  | nil =>
    constructor
    · exact fun follows => ⟨start, rfl, follows⟩
    · rintro ⟨mid, rfl, follows⟩
      exact follows
  | cons a as ih =>
    simp only [List.cons_append, Follows, ih]
    constructor
    · rintro ⟨here, node, used, mid, first, rest⟩
      exact ⟨mid, ⟨here, node, used, first⟩, rest⟩
    · rintro ⟨mid, ⟨here, node, used, first⟩, rest⟩
      exact ⟨here, node, used, mid, first, rest⟩

/-- There is only one way to the end. -/
theorem Follows.unique (one : Follows heap link start as none)
    (other : Follows heap link start bs none) : as = bs := by
  induction as generalizing start bs with
  | nil =>
    obtain rfl := one
    cases bs with
    | nil => rfl
    | cons b bs => cases other.1
  | cons a as ih =>
    obtain ⟨rfl, node, used, rest⟩ := one
    cases bs with
    | nil => cases other
    | cons b bs =>
      obtain ⟨same, node', used', rest'⟩ := other
      obtain rfl := Option.some.inj same
      obtain rfl := Option.some.inj (used.symm.trans used')
      rw [ih rest rest']

/-- A way to the end does not pass the same address twice. -/
theorem Follows.nodup (follows : Follows heap link start as none) : as.Nodup := by
  induction as generalizing start with
  | nil => exact List.nodup_nil
  | cons a as ih =>
    obtain ⟨-, node, used, rest⟩ := follows
    refine List.nodup_cons.mpr ⟨fun again => ?_, ih rest⟩
    obtain ⟨before, behind, rfl⟩ := List.append_of_mem again
    obtain ⟨mid, -, back⟩ := follows_append.mp rest
    rw [back.1] at back
    have whole : Follows heap link (some a) (a :: (before ++ a :: behind)) none :=
      ⟨rfl, node, used, rest⟩
    have length := congrArg List.length (whole.unique back)
    simp only [List.length_cons, List.length_append] at length
    omega

end Follows

/-! ## Chains of cells -/

/-- The address of the first cell, with that of what comes behind all of them. -/
def first (cells : List (Nat × α)) (n : Option Nat) : Option Nat :=
  match cells with
  | [] => n
  | (a, _) :: _ => some a

/-- The address of the last cell, with that of what comes before all of them. -/
def last (p : Option Nat) : List (Nat × α) → Option Nat
  | [] => p
  | (a, _) :: rest => last (some a) rest

/-- The cells are chained in both directions, from behind `p` up to `n`. -/
def Linked (heap : Heap α) : Option Nat → List (Nat × α) → Option Nat → Prop
  | _, [], _ => True
  | p, (a, x) :: rest, n =>
    heap a = some ⟨x, p, first rest n⟩ ∧ Linked heap (some a) rest n

def addresses (cells : List (Nat × α)) : List Nat := cells.map Prod.fst

def items (cells : List (Nat × α)) : List α := cells.map Prod.snd

@[simp] theorem addresses_cons (a : Nat) (x : α) (cells : List (Nat × α)) :
    addresses ((a, x) :: cells) = a :: addresses cells := rfl

@[simp] theorem addresses_append (xs ys : List (Nat × α)) :
    addresses (xs ++ ys) = addresses xs ++ addresses ys := List.map_append

theorem first_append (xs ys : List (Nat × α)) (n : Option Nat) :
    first (xs ++ ys) n = first xs (first ys n) := by
  cases xs <;> rfl

theorem first_eq_none_iff : first cells none = none ↔ cells = [] := by
  cases cells with
  | nil => exact ⟨fun _ => rfl, fun _ => rfl⟩
  | cons cell cells => exact ⟨nofun, nofun⟩

theorem first_eq_head? (cells : List (Nat × α)) : first cells none = (addresses cells).head? := by
  cases cells <;> rfl

theorem last_eq_getLast? (cells : List (Nat × α)) :
    last none cells = (addresses cells).getLast? := by
  induction cells with
  | nil => rfl
  | cons cell rest ih =>
    cases rest with
    | nil => rfl
    | cons next rest => exact ih.trans (List.getLast?_cons_cons ..).symm

/-- Where the cells are does not depend on what comes before them. -/
theorem last_of_ne_nil (some_ : cells ≠ []) (p q : Option Nat) : last p cells = last q cells := by
  cases cells with
  | nil => exact absurd rfl some_
  | cons cell cells => rfl

theorem last_append (p : Option Nat) (xs ys : List (Nat × α)) :
    last p (xs ++ ys) = last (last p xs) ys := by
  induction xs generalizing p with
  | nil => rfl
  | cons cell xs ih => exact ih _

/-- The last cell of a chain changes with what is put at its end only. -/
theorem ite_last (v : Option Nat) (xs ys : List (Nat × α)) :
    (if first ys none = none then v else last none (xs ++ ys)) = last v ys := by
  by_cases none_ : ys = []
  · rw [if_pos (first_eq_none_iff.mpr none_), none_]
    rfl
  · rw [if_neg (mt first_eq_none_iff.mp none_), last_append]
    exact last_of_ne_nil none_ _ _

/-- The last cell is one of the cells, if there are any. -/
theorem last_cons_mem (p : Option Nat) (cell : Nat × α) (cells : List (Nat × α)) :
    ∃ b ∈ addresses (cell :: cells), last p (cell :: cells) = some b := by
  induction cells generalizing p cell with
  | nil => exact ⟨cell.1, List.mem_cons_self, rfl⟩
  | cons next cells ih =>
    obtain ⟨b, member, same⟩ := ih (some cell.1) next
    exact ⟨b, List.mem_cons_of_mem _ member, same⟩

theorem linked_append :
    Linked heap p (xs ++ ys) n ↔
      Linked heap p xs (first ys n) ∧ Linked heap (last p xs) ys n := by
  induction xs generalizing p with
  | nil => exact ⟨fun linked => ⟨trivial, linked⟩, fun both => both.2⟩
  | cons cell xs ih =>
    obtain ⟨a, x⟩ := cell
    rw [List.cons_append, Linked, Linked, ih, first_append, last, and_assoc]

/-- What is written elsewhere does not matter. -/
theorem Linked.frame (linked : Linked heap p cells n)
    (same : ∀ a ∈ addresses cells, heap' a = heap a) : Linked heap' p cells n := by
  induction cells generalizing p with
  | nil => trivial
  | cons cell cells ih =>
    obtain ⟨a, x⟩ := cell
    refine ⟨?_, ih linked.2 fun b member => same b (List.mem_cons_of_mem a member)⟩
    rw [same a List.mem_cons_self]
    exact linked.1

/-- Both links visit the cells, one from the front and the other from the back. -/
theorem Linked.follows (linked : Linked heap p cells n) :
    Follows heap Node.next (first cells n) (addresses cells) n ∧
      Follows heap Node.prev (last p cells) (addresses cells).reverse p := by
  induction cells generalizing p with
  | nil => exact ⟨rfl, rfl⟩
  | cons cell cells ih =>
    obtain ⟨a, x⟩ := cell
    obtain ⟨forth, back⟩ := ih linked.2
    refine ⟨⟨rfl, _, linked.1, forth⟩, ?_⟩
    rw [addresses_cons, List.reverse_cons]
    exact follows_append.mpr ⟨some a, back, rfl, _, linked.1, rfl⟩

theorem Linked.nodup (linked : Linked heap p cells none) : (addresses cells).Nodup :=
  linked.follows.1.nodup

/-- The cells are determined by where the first one is. -/
theorem Linked.unique (one : Linked heap p xs none) (other : Linked heap q ys none)
    (start : first xs none = first ys none) : xs = ys := by
  have same : addresses xs = addresses ys := by
    have follows := other.follows.1
    rw [← start] at follows
    exact one.follows.1.unique follows
  clear start
  induction xs generalizing p q ys with
  | nil => exact (List.map_eq_nil_iff.mp same.symm).symm
  | cons cell xs ih =>
    obtain ⟨a, x⟩ := cell
    cases ys with
    | nil => cases same
    | cons cell' ys =>
      obtain ⟨b, y⟩ := cell'
      obtain ⟨rfl, rest⟩ := List.cons.inj same
      have node := Option.some.inj (one.1.symm.trans other.1)
      obtain rfl : x = y := congrArg Node.data node
      rw [ih one.2 other.2 rest]

/-- The addresses which are visited from the front, `fuel` of them at most. -/
def walk (heap : Heap α) : Nat → Option Nat → List Nat
  | 0, _ => []
  | _ + 1, none => []
  | fuel + 1, some a =>
    match heap a with
    | none => []
    | some node => a :: walk heap fuel node.next

theorem Linked.walk {fuel : Nat} (linked : Linked heap p cells none)
    (enough : cells.length ≤ fuel) : walk heap fuel (first cells none) = addresses cells := by
  induction cells generalizing p fuel with
  | nil => cases fuel <;> rfl
  | cons cell cells ih =>
    obtain ⟨a, x⟩ := cell
    rw [List.length_cons] at enough
    obtain ⟨fuel, rfl⟩ : ∃ m, fuel = m + 1 := ⟨fuel - 1, by omega⟩
    rw [first, DLinked.walk, linked.1]
    exact congrArg (a :: ·) (ih linked.2 (by omega))

/-! ## Changing a chain -/

/-- The cells may be led on to somewhere else, by a write to the last of them. -/
theorem Linked.changeNext {n' : Option Nat} (linked : Linked heap p cells n)
    (distinct : (addresses cells).Nodup)
    (ends : ∀ a node, last none cells = some a → heap a = some node →
      heap' a = some { node with next := n' })
    (others : ∀ a ∈ addresses cells, last none cells ≠ some a → heap' a = heap a) :
    Linked heap' p cells n' := by
  induction cells generalizing p with
  | nil => trivial
  | cons cell rest ih =>
    obtain ⟨a, x⟩ := cell
    obtain ⟨here, later⟩ := linked
    cases rest with
    | nil => exact ⟨ends a _ rfl here, trivial⟩
    | cons next rest =>
      obtain ⟨fresh, distinct'⟩ := List.nodup_cons.mp distinct
      obtain ⟨b, member, isLast⟩ := last_cons_mem none next rest
      have other : last none ((a, x) :: next :: rest) ≠ some a := by
        intro same
        have same' : last none (next :: rest) = some a := same
        rw [isLast] at same'
        exact fresh (Option.some.inj same' ▸ member)
      refine ⟨?_, ih later distinct' ends fun c inside => others c (List.mem_cons_of_mem a inside)⟩
      rw [others a List.mem_cons_self other]
      exact here

/-- The cells may be led to from somewhere else, by a write to the first of them. -/
theorem Linked.changePrev {p' : Option Nat} (linked : Linked heap p cells n)
    (distinct : (addresses cells).Nodup)
    (begins : ∀ a node, first cells none = some a → heap a = some node →
      heap' a = some { node with prev := p' })
    (others : ∀ a ∈ addresses cells, first cells none ≠ some a → heap' a = heap a) :
    Linked heap' p' cells n := by
  cases cells with
  | nil => trivial
  | cons cell rest =>
    obtain ⟨a, x⟩ := cell
    obtain ⟨here, later⟩ := linked
    refine ⟨begins a _ rfl here, later.frame fun b member => ?_⟩
    apply others b (List.mem_cons_of_mem a member)
    intro same
    obtain rfl : a = b := Option.some.inj same
    exact (List.nodup_cons.mp distinct).1 member

section Positions

variable (distinct : (addresses (xs ++ ys)).Nodup)
include distinct

theorem last_ne_of_mem_right (b : Nat) (member : b ∈ addresses ys) : last none xs ≠ some b := by
  rw [addresses_append, List.nodup_append] at distinct
  cases xs with
  | nil => nofun
  | cons cell xs =>
    obtain ⟨c, inside, isLast⟩ := last_cons_mem none cell xs
    rw [isLast]
    intro same
    exact distinct.2.2 c inside b member (Option.some.inj same)

theorem first_ne_of_mem_left (b : Nat) (member : b ∈ addresses xs) : first ys none ≠ some b := by
  rw [addresses_append, List.nodup_append] at distinct
  cases ys with
  | nil => nofun
  | cons cell ys =>
    intro same
    exact distinct.2.2 b member cell.1 List.mem_cons_self (Option.some.inj same).symm

theorem last_ne_first (b : Nat) (isLast : last none xs = some b) : first ys none ≠ some b := by
  cases xs with
  | nil => cases isLast
  | cons cell xs =>
    obtain ⟨c, member, same⟩ := last_cons_mem none cell xs
    obtain rfl := Option.some.inj (same.symm.trans isLast)
    exact first_ne_of_mem_left distinct c member

/-- Two parts of a chain are led to each other past what was between them, or to something new
between them, by a write to each of the neighbours. -/
theorem Linked.relink {n' p' : Option Nat} (left : Linked heap none xs n)
    (right : Linked heap p ys none)
    (before : ∀ a node, last none xs = some a → heap a = some node →
      heap' a = some { node with next := n' })
    (behind : ∀ a node, first ys none = some a → heap a = some node →
      heap' a = some { node with prev := p' })
    (others : ∀ a ∈ addresses (xs ++ ys), last none xs ≠ some a → first ys none ≠ some a →
      heap' a = heap a) :
    Linked heap' none xs n' ∧ Linked heap' p' ys none := by
  have whole := distinct
  rw [addresses_append, List.nodup_append] at distinct
  constructor
  · refine left.changeNext distinct.1 before fun a member notLast => ?_
    refine others a ?_ notLast (first_ne_of_mem_left whole a member)
    rw [addresses_append]
    exact List.mem_append_left _ member
  · refine right.changePrev distinct.2.1 behind fun a member notFirst => ?_
    refine others a ?_ (last_ne_of_mem_right whole a member) notFirst
    rw [addresses_append]
    exact List.mem_append_right _ member

end Positions

/-- A new cell is put into a chain by writing it and a link of each neighbour. -/
theorem Linked.insert (linked : Linked heap none (xs ++ ys) none)
    (new : heap' a = some ⟨x, last none xs, first ys none⟩)
    (before : ∀ b node, last none xs = some b → heap b = some node →
      heap' b = some { node with next := some a })
    (behind : ∀ b node, first ys none = some b → heap b = some node →
      heap' b = some { node with prev := some a })
    (others : ∀ b ∈ addresses (xs ++ ys), last none xs ≠ some b → first ys none ≠ some b →
      heap' b = heap b) :
    Linked heap' none (xs ++ (a, x) :: ys) none := by
  have distinct := linked.nodup
  obtain ⟨left, right⟩ := linked_append.mp linked
  obtain ⟨left', right'⟩ := left.relink distinct right before behind others
  exact linked_append.mpr ⟨left', new, right'⟩

/-- A cell is taken out of a chain by writing a link of each neighbour. -/
theorem Linked.unlink (linked : Linked heap none (xs ++ (a, x) :: ys) none)
    (before : ∀ b node, last none xs = some b → heap b = some node →
      heap' b = some { node with next := first ys none })
    (behind : ∀ b node, first ys none = some b → heap b = some node →
      heap' b = some { node with prev := last none xs })
    (others : ∀ b ∈ addresses (xs ++ ys), last none xs ≠ some b → first ys none ≠ some b →
      heap' b = heap b) :
    Linked heap' none (xs ++ ys) none := by
  have distinct : (addresses (xs ++ ys)).Nodup := by
    have whole := linked.nodup
    rw [addresses_append, addresses_cons] at whole
    rw [addresses_append]
    exact (List.nodup_middle.mp whole).of_cons
  obtain ⟨left, -, right⟩ := linked_append.mp linked
  obtain ⟨left', right'⟩ := left.relink distinct right before behind others
  exact linked_append.mpr ⟨left', right'⟩

/-- The links do not depend on the items. -/
theorem Linked.setData (linked : Linked heap none (xs ++ (a, x) :: ys) none)
    (new : ∀ node, heap a = some node → heap' a = some { node with data := y })
    (others : ∀ b, b ≠ a → heap' b = heap b) :
    Linked heap' none (xs ++ (a, y) :: ys) none := by
  have distinct := linked.nodup
  rw [addresses_append, addresses_cons] at distinct
  have fresh := (List.nodup_cons.mp (List.nodup_middle.mp distinct)).1
  obtain ⟨left, here, right⟩ := linked_append.mp linked
  refine linked_append.mpr ⟨left.frame fun b member => others b ?_, ?_, right.frame fun b member =>
    others b ?_⟩
  · rintro rfl
    exact fresh (List.mem_append_left _ member)
  · exact new _ here
  · rintro rfl
    exact fresh (List.mem_append_right _ member)

/-! ## Writing through pointers -/

/-- A write to the node at an address, which must be in use. -/
def modify (heap : Heap α) (a : Nat) (f : Node α → Node α) : Option (Heap α) :=
  (heap a).map fun node => Function.update heap a (some (f node))

/-- A write to a node, if there is one. -/
def modifyIf (heap : Heap α) (a : Option Nat) (f : Node α → Node α) : Option (Heap α) :=
  match a with
  | none => some heap
  | some a => modify heap a f

/-- Only the node which is written to changes. -/
theorem modifyIf_spec (heap : Heap α) (place : Option Nat) (f : Node α → Node α)
    (used : ∀ a, place = some a → heap a ≠ none) :
    ∃ heap', modifyIf heap place f = some heap' ∧
      (∀ a node, place = some a → heap a = some node → heap' a = some (f node)) ∧
      ∀ b, place ≠ some b → heap' b = heap b := by
  cases place with
  | none => exact ⟨heap, rfl, nofun, fun _ _ => rfl⟩
  | some a =>
    obtain ⟨node, here⟩ := Option.ne_none_iff_exists'.mp (used a rfl)
    refine ⟨Function.update heap a (some (f node)), by rw [modifyIf, modify, here]; rfl, ?_, ?_⟩
    · rintro _ node' ⟨⟩ here'
      obtain rfl := Option.some.inj (here.symm.trans here')
      rw [Function.update_self]
    · intro b other
      exact Function.update_of_ne (fun same => other (congrArg some same.symm)) _ _

/-- The neighbours of a place in a chain are in use. -/
theorem neighbours (xs ys : List (Nat × α)) :
    (∀ b, last none xs = some b → b ∈ addresses (xs ++ ys)) ∧
      ∀ b, first ys none = some b → b ∈ addresses (xs ++ ys) := by
  constructor
  · intro b isLast
    cases xs with
    | nil => cases isLast
    | cons cell xs =>
      obtain ⟨c, member, same⟩ := last_cons_mem none cell xs
      obtain rfl := Option.some.inj (same.symm.trans isLast)
      rw [addresses_append]
      exact List.mem_append_left _ member
  · intro b isFirst
    cases ys with
    | nil => cases isFirst
    | cons cell ys =>
      obtain rfl := Option.some.inj isFirst
      rw [addresses_append]
      exact List.mem_append_right _ List.mem_cons_self

/-- The last cell leads to what comes behind the chain. -/
theorem Linked.last_next (linked : Linked heap p cells n) {a : Nat}
    (isLast : last none cells = some a) : ∃ node, heap a = some node ∧ node.next = n := by
  induction cells generalizing p with
  | nil => cases isLast
  | cons cell cells ih =>
    obtain ⟨b, x⟩ := cell
    cases cells with
    | nil =>
      obtain rfl : b = a := Option.some.inj isLast
      exact ⟨_, linked.1, rfl⟩
    | cons next cells => exact ih linked.2 isLast

/-- The item of a cell is that of its node. -/
theorem Linked.data (linked : Linked heap p cells n) {a : Nat} {x : α} (member : (a, x) ∈ cells) :
    ∃ prev next, heap a = some ⟨x, prev, next⟩ := by
  induction cells generalizing p with
  | nil => cases member
  | cons cell cells ih =>
    rcases List.mem_cons.mp member with rfl | inside
    · exact ⟨_, _, linked.1⟩
    · exact ih linked.2 inside

theorem Linked.used (linked : Linked heap p cells n) {a : Nat} (member : a ∈ addresses cells) :
    heap a ≠ none := by
  obtain ⟨⟨b, x⟩, inside, rfl⟩ := List.mem_map.mp member
  obtain ⟨prev, next, here⟩ := linked.data inside
  rw [here]
  nofun

/-- Writing a new node between two parts of a chain, and then the links of its neighbours. -/
theorem Linked.insert_writes (linked : Linked heap none (xs ++ ys) none) (unused : heap a = none)
    (x : α) :
    ∃ heap1 heap2,
      modifyIf (Function.update heap a (some ⟨x, last none xs, first ys none⟩)) (first ys none)
        (fun node => { node with prev := some a }) = some heap1 ∧
      modifyIf heap1 (last none xs) (fun node => { node with next := some a }) = some heap2 ∧
      Linked heap2 none (xs ++ (a, x) :: ys) none ∧
      ∀ b, b ≠ a → last none xs ≠ some b → first ys none ≠ some b → heap2 b = heap b := by
  obtain ⟨lastIn, firstIn⟩ := neighbours xs ys
  have apart {b : Nat} (member : b ∈ addresses (xs ++ ys)) : b ≠ a := by
    rintro rfl
    exact linked.used member unused
  have notFirst {b : Nat} := last_ne_first linked.nodup b
  have old {b : Nat} (other : b ≠ a) :
      Function.update heap a (some ⟨x, last none xs, first ys none⟩) b = heap b :=
    Function.update_of_ne other _ _
  obtain ⟨heap1, write1, changed1, same1⟩ := modifyIf_spec
      (Function.update heap a (some ⟨x, last none xs, first ys none⟩)) (first ys none)
      (fun node => { node with prev := some a }) fun b isFirst => by
      rw [old (apart (firstIn b isFirst))]
      exact linked.used (firstIn b isFirst)
  obtain ⟨heap2, write2, changed2, same2⟩ := modifyIf_spec heap1 (last none xs)
      (fun node => { node with next := some a }) fun b isLast => by
      rw [same1 b (notFirst isLast), old (apart (lastIn b isLast))]
      exact linked.used (lastIn b isLast)
  refine ⟨heap1, heap2, write1, write2, linked.insert ?_ ?_ ?_ ?_, ?_⟩
  · rw [same2 a fun same => apart (lastIn a same) rfl, same1 a fun same => apart (firstIn a same) rfl]
    exact Function.update_self ..
  · intro b node isLast here
    apply changed2 b node isLast
    rw [same1 b (notFirst isLast), old (apart (lastIn b isLast)), here]
  · intro b node isFirst here
    rw [same2 b fun isLast => notFirst isLast isFirst]
    apply changed1 b node isFirst
    rw [old (apart (firstIn b isFirst)), here]
  · intro b member notLast notFirst'
    rw [same2 b notLast, same1 b notFirst', old (apart member)]
  · intro b other notLast notFirst'
    rw [same2 b notLast, same1 b notFirst', old other]

/-- Writing the links of its neighbours around a node, which is then given back. -/
theorem Linked.unlink_writes (linked : Linked heap none (xs ++ (a, x) :: ys) none) :
    ∃ heap1 heap2,
      modifyIf heap (last none xs) (fun node => { node with next := first ys none }) =
        some heap1 ∧
      modifyIf heap1 (first ys none) (fun node => { node with prev := last none xs }) =
        some heap2 ∧
      Linked (Function.update heap2 a none) none (xs ++ ys) none ∧
      ∀ b, b ≠ a → last none xs ≠ some b → first ys none ≠ some b → heap2 b = heap b := by
  have whole := linked.nodup
  rw [addresses_append, addresses_cons] at whole
  obtain ⟨absent, distinct⟩ := List.nodup_cons.mp (List.nodup_middle.mp whole)
  rw [← addresses_append] at absent distinct
  obtain ⟨lastIn, firstIn⟩ := neighbours xs ys
  have notFirst {b : Nat} := last_ne_first distinct b
  have used {b : Nat} (member : b ∈ addresses (xs ++ ys)) : heap b ≠ none := by
    apply linked.used
    rw [addresses_append] at member ⊢
    exact List.mem_append.mpr ((List.mem_append.mp member).imp_right (List.mem_cons_of_mem a))
  obtain ⟨heap1, write1, changed1, same1⟩ := modifyIf_spec heap (last none xs)
      (fun node => { node with next := first ys none }) fun b isLast => used (lastIn b isLast)
  obtain ⟨heap2, write2, changed2, same2⟩ := modifyIf_spec heap1 (first ys none)
      (fun node => { node with prev := last none xs }) fun b isFirst => by
      rw [same1 b fun isLast => notFirst isLast isFirst]
      exact used (firstIn b isFirst)
  have other {b : Nat} (member : b ∈ addresses (xs ++ ys)) :
      Function.update heap2 a none b = heap2 b := by
    apply Function.update_of_ne
    rintro rfl
    exact absent member
  refine ⟨heap1, heap2, write1, write2, linked.unlink ?_ ?_ ?_, ?_⟩
  · intro b node isLast stored
    rw [other (lastIn b isLast), same2 b (notFirst isLast)]
    exact changed1 b node isLast stored
  · intro b node isFirst stored
    rw [other (firstIn b isFirst)]
    apply changed2 b node isFirst
    rw [same1 b fun isLast => notFirst isLast isFirst, stored]
  · intro b member notLast notFirst'
    rw [other member, same2 b notFirst', same1 b notLast]
  · intro b _ notLast notFirst'
    rw [same2 b notFirst', same1 b notLast]

end DLinked
