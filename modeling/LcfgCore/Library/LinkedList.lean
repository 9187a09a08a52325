import Mathlib.Data.List.Basic
import Mathlib.Data.List.Nodup

/-!
# Singly linked lists with a tail pointer

A list owns a chain of nodes. Each node has an address and carries one item;
the chain is given in the order of the `next` pointers. The list also caches
its last node and its length, which nothing but the operations keeps right.

`Wf.insertNext_tail` and `Wf.removeNext_found` say what the two operations do to
the items, and that they keep the cached fields correct.
-/
namespace LinkedList

structure Node (α : Type) where
  addr : Nat
  data : α
deriving DecidableEq, Repr

end LinkedList

structure LinkedList (α : Type) where
  nodes : List (LinkedList.Node α)
  tail : Option Nat
  size : Nat
deriving DecidableEq, Repr

namespace LinkedList

variable {α : Type}

def empty : LinkedList α := ⟨[], none, 0⟩

def isEmpty (l : LinkedList α) : Bool := l.size == 0

/-- The items, from the head to the last node. -/
def items (l : LinkedList α) : List α := l.nodes.map Node.data

def head? (l : LinkedList α) : Option α := l.items.head?

/-- The address which the allocator hands out next: one no node of the list uses. -/
def freshAddr (nodes : List (Node α)) : Nat := (nodes.map Node.addr).foldr max 0 + 1

/-- Put a node behind the node at address `a`; `none` if there is no such node. -/
def insertAfter (a : Nat) (new : Node α) : List (Node α) → Option (List (Node α))
  | [] => none
  | node :: rest =>
    if node.addr = a then some (node :: new :: rest)
    else (insertAfter a new rest).map (node :: ·)

/-- Insert an item behind the given node, or at the head when there is none. -/
def insertNext (l : LinkedList α) (node : Option Nat) (item : α) : Option (LinkedList α) :=
  let new : Node α := ⟨freshAddr l.nodes, item⟩
  match node with
  | none => some {
      nodes := new :: l.nodes
      tail := if l.isEmpty then some new.addr else l.tail
      size := l.size + 1 }
  | some a =>
    (insertAfter a new l.nodes).map fun nodes => {
      nodes := nodes
      -- the given node had no successor
      tail := if (l.nodes.getLast?.map Node.addr) = some a then some new.addr else l.tail
      size := l.size + 1 }

/-- Take out the successor of the node at address `a`; `none` if it has none. -/
def removeAfter (a : Nat) : List (Node α) → Option (Node α × List (Node α))
  | [] => none
  | node :: rest =>
    if node.addr = a then
      match rest with
      | [] => none
      | old :: rest => some (old, node :: rest)
    else (removeAfter a rest).map fun (old, kept) => (old, node :: kept)

/-- Remove the item behind the given node, or the head when there is none. -/
def removeNext (l : LinkedList α) (node : Option Nat) : Option (α × LinkedList α) :=
  match node with
  | none =>
    match l.nodes with
    | [] => none
    | old :: rest => some (old.data, {
        nodes := rest
        tail := if l.size = 1 then none else l.tail
        size := l.size - 1 })
  | some a =>
    (removeAfter a l.nodes).map fun (old, nodes) => (old.data, {
      nodes := nodes
      tail := if (nodes.getLast?.map Node.addr) = some a then some a else l.tail
      size := l.size - 1 })

/-- Walk along the chain to the first item that is looked for, remembering the
node before it. Items to skip are passed without being remembered. -/
def search (skip found : α → Bool) : Option Nat → List (Node α) → Option Nat × Option (Node α)
  | prev, [] => (prev, none)
  | prev, node :: rest =>
    if skip node.data then search skip found prev rest
    else if found node.data then (prev, some node)
    else search skip found (some node.addr) rest

/-- Other items in the same nodes. -/
def withItems (l : LinkedList α) (items : List α) : LinkedList α :=
  { l with nodes := List.zipWith (fun node item => { node with data := item }) l.nodes items }

/-- The cached fields describe the chain, and no two nodes share an address. -/
structure Wf (l : LinkedList α) : Prop where
  size_eq : l.size = l.nodes.length
  tail_eq : l.tail = l.nodes.getLast?.map Node.addr
  nodup : (l.nodes.map Node.addr).Nodup

theorem empty_wf : Wf (empty : LinkedList α) := ⟨rfl, rfl, List.nodup_nil⟩

@[simp] theorem items_empty : (empty : LinkedList α).items = [] := rfl

theorem Wf.isEmpty_iff {l : LinkedList α} (wf : Wf l) : l.isEmpty = true ↔ l.items = [] := by
  simp [isEmpty, items, wf.size_eq]

theorem Wf.size_items {l : LinkedList α} (wf : Wf l) : l.size = l.items.length := by
  simp [items, wf.size_eq]

private theorem zipWith_spec (nodes : List (Node α)) {new : List α}
    (length : new.length = nodes.length) :
    let rewritten := List.zipWith (fun node item => { node with data := item }) nodes new
    rewritten.map Node.addr = nodes.map Node.addr ∧ rewritten.map Node.data = new := by
  induction nodes generalizing new with
  | nil => exact ⟨rfl, (List.eq_nil_of_length_eq_zero length).symm⟩
  | cons node rest ih =>
    cases new with
    | nil => cases length
    | cons item new =>
      obtain ⟨addrs, datas⟩ := ih (Nat.succ_inj.mp length)
      exact ⟨congrArg (node.addr :: ·) addrs, congrArg (item :: ·) datas⟩

theorem Wf.withItems {l : LinkedList α} (wf : Wf l) {new : List α}
    (length : new.length = l.items.length) :
    Wf (l.withItems new) ∧ (l.withItems new).items = new := by
  obtain ⟨addrs, datas⟩ := zipWith_spec l.nodes (length.trans (List.length_map Node.data))
  have count := congrArg List.length addrs
  rw [List.length_map, List.length_map] at count
  refine ⟨⟨wf.size_eq.trans count.symm, ?_, addrs.symm ▸ wf.nodup⟩, datas⟩
  rw [← List.getLast?_map, LinkedList.withItems, addrs, List.getLast?_map]
  exact wf.tail_eq

private theorem addr_lt_fresh (nodes : List (Node α)) (node : Node α) (member : node ∈ nodes) :
    node.addr < freshAddr nodes := by
  induction nodes with
  | nil => simp at member
  | cons first rest ih =>
    simp only [freshAddr, List.map_cons, List.foldr_cons] at ih ⊢
    rcases List.mem_cons.mp member with rfl | later
    · omega
    · have bound := ih later
      omega

theorem fresh_not_mem (nodes : List (Node α)) : freshAddr nodes ∉ nodes.map Node.addr := by
  intro member
  obtain ⟨node, here, same⟩ := List.mem_map.mp member
  have bound := addr_lt_fresh nodes node here
  omega

theorem insertAfter_append (a : Nat) (new node : Node α) (before after : List (Node α))
    (here : node.addr = a) (absent : a ∉ before.map Node.addr) :
    insertAfter a new (before ++ node :: after) = some (before ++ node :: new :: after) := by
  induction before with
  | nil => simp [insertAfter, here]
  | cons first rest ih =>
    simp only [List.map_cons, List.mem_cons, not_or] at absent
    simp [insertAfter, Ne.symm absent.1, ih absent.2]

theorem removeAfter_append (a : Nat) (node old : Node α) (before after : List (Node α))
    (here : node.addr = a) (absent : a ∉ before.map Node.addr) :
    removeAfter a (before ++ node :: old :: after) = some (old, before ++ node :: after) := by
  induction before with
  | nil => simp [removeAfter, here]
  | cons first rest ih =>
    simp only [List.map_cons, List.mem_cons, not_or] at absent
    simp [removeAfter, Ne.symm absent.1, ih absent.2]

/-- Inserting behind the tail appends. -/
theorem Wf.insertNext_tail {l : LinkedList α} (wf : Wf l) (item : α) :
    ∃ l', insertNext l l.tail item = some l' ∧ Wf l' ∧ l'.items = l.items ++ [item] := by
  have fresh := fresh_not_mem l.nodes
  rcases List.eq_nil_or_concat l.nodes with none | ⟨before, last, chain⟩
  -- the first item of an empty list
  · have tail : l.tail = Option.none := by simp [wf.tail_eq, none]
    have size : l.size = 0 := by simp [wf.size_eq, none]
    refine ⟨_, by rw [tail]; rfl, ⟨?_, ?_, ?_⟩, ?_⟩
    · simp [none, size]
    · simp [none, isEmpty, size]
    · simp [none]
    · simp [items, none]
  · rw [List.concat_eq_append] at chain
    have tail : l.tail = some last.addr := by simp [wf.tail_eq, chain]
    have addrs := wf.nodup
    rw [chain, List.map_append, List.nodup_append] at addrs
    have absent : last.addr ∉ before.map Node.addr := by
      intro member
      exact addrs.2.2 last.addr member last.addr (by simp) rfl
    have inserted := insertAfter_append last.addr ⟨freshAddr l.nodes, item⟩ last before [] rfl absent
    rw [← chain] at inserted
    refine ⟨_, by rw [tail, insertNext, inserted]; rfl, ⟨?_, ?_, ?_⟩, ?_⟩
    · simp [wf.size_eq, chain]
    · simp [chain]
    -- the new node has an address of its own
    · have distinct := wf.nodup
      rw [chain] at distinct fresh ⊢
      simp only [List.map_append, List.map_cons, List.map_nil, List.mem_append, List.mem_singleton,
        not_or] at distinct fresh ⊢
      rw [show before.map Node.addr ++ [last.addr, freshAddr (before ++ [last])] =
        (before.map Node.addr ++ [last.addr]) ++ [freshAddr (before ++ [last])] by simp]
      refine List.nodup_append.mpr ⟨distinct, by simp, ?_⟩
      intro a ha b hb same
      rw [List.mem_singleton] at hb
      subst a b
      simp only [List.mem_append, List.mem_singleton] at ha
      rcases ha with ha | ha
      · exact fresh.1 ha
      · exact fresh.2 ha
    · simp [items, chain]

/-- A node with a successor is not the last one. -/
private theorem last_ne_of_next (front rest : List (Node α)) (prev next : Node α)
    (distinct : ((front ++ prev :: next :: rest).map Node.addr).Nodup) :
    (front ++ prev :: next :: rest).getLast?.map Node.addr ≠ some prev.addr := by
  intro same
  obtain ⟨node, found, equal⟩ := Option.map_eq_some_iff.mp same
  have last : (front ++ prev :: next :: rest).getLast? = (next :: rest).getLast? := by
    rw [List.append_cons, List.getLast?_append_of_ne_nil _ (by simp)]
  have member : node ∈ next :: rest := List.mem_of_getLast? (last ▸ found)
  rw [List.map_append, List.nodup_append, List.map_cons, List.nodup_cons] at distinct
  exact distinct.2.1.1 (equal ▸ List.mem_map_of_mem member)

/-- Removing behind the last node of a prefix takes the next item out of the chain. -/
theorem Wf.removeNext_prev {l : LinkedList α} (wf : Wf l) (before after : List (Node α))
    (old : Node α) (chain : l.nodes = before ++ old :: after) :
    ∃ l', removeNext l (before.getLast?.map Node.addr) = some (old.data, l') ∧ Wf l' ∧
      l'.nodes = before ++ after := by
  have distinct : ((before ++ after).map Node.addr).Nodup := by
    have whole := wf.nodup
    rw [chain] at whole
    exact whole.sublist (((List.Sublist.refl _).append (List.sublist_cons_self _ _)).map _)
  rcases List.eq_nil_or_concat before with rfl | ⟨front, prev, rfl⟩
  -- the head is removed, and with it the tail of a list of one item
  · rw [List.nil_append] at chain
    have removed : removeNext l none = some (old.data, ⟨after,
        if l.size = 1 then none else l.tail, l.size - 1⟩) := by
      simp only [removeNext, chain]
    refine ⟨_, removed, ⟨?_, ?_, distinct⟩, rfl⟩
    · simp [wf.size_eq, chain]
    · cases after with
      | nil => simp [wf.size_eq, chain]
      | cons next rest => simp [wf.size_eq, wf.tail_eq, chain]
  · rw [List.concat_eq_append] at chain distinct ⊢
    simp only [List.append_assoc, List.singleton_append] at chain distinct ⊢
    have addrs := wf.nodup
    rw [chain, List.map_append, List.nodup_append] at addrs
    have absent : prev.addr ∉ front.map Node.addr := by
      intro member
      exact addrs.2.2 prev.addr member prev.addr (by simp) rfl
    have prevAddr : (front ++ [prev]).getLast?.map Node.addr = some prev.addr := by simp
    have removed : removeNext l (some prev.addr) = some (old.data, ⟨front ++ prev :: after,
        if (front ++ prev :: after).getLast?.map Node.addr = some prev.addr
          then some prev.addr else l.tail, l.size - 1⟩) := by
      simp only [removeNext, chain, removeAfter_append prev.addr prev old front after rfl absent,
        Option.map_some]
    rw [prevAddr]
    refine ⟨_, removed, ⟨?_, ?_, distinct⟩, rfl⟩
    · simp [wf.size_eq, chain]
    -- only the last node could be the tail which was removed
    · cases after with
      | nil => simp
      | cons next rest =>
        simp only [last_ne_of_next front rest prev next distinct, if_false, wf.tail_eq, chain]
        simp [List.getLast?_append, List.getLast?_cons_cons]

private theorem search_append (skip found : α → Bool) (nodes : List (Node α)) (prev : Option Nat)
    (plain : ∀ node ∈ nodes, skip node.data = false) :
    (search skip found prev nodes).2 = nodes.find? (found ·.data) ∧
      ∀ cur, (search skip found prev nodes).2 = some cur → ∃ before after,
        nodes = before ++ cur :: after ∧ (∀ node ∈ before, found node.data = false) ∧
        found cur.data = true ∧
        (search skip found prev nodes).1 = (before.getLast?.map Node.addr).or prev := by
  induction nodes generalizing prev with
  | nil => simp [search]
  | cons node rest ih =>
    have here : skip node.data = false := plain node (by simp)
    obtain ⟨same, spec⟩ := ih (some node.addr) fun n hn => plain n (by simp [hn])
    cases hit : found node.data with
    | true =>
      simp only [search, here, hit, Bool.false_eq_true, if_false, if_true, List.find?_cons]
      refine ⟨trivial, ?_⟩
      rintro cur ⟨rfl⟩
      exact ⟨[], rest, by simp, by simp, hit, by simp⟩
    | false =>
      simp only [search, here, hit, Bool.false_eq_true, if_false, List.find?_cons]
      refine ⟨same, fun cur stopped => ?_⟩
      obtain ⟨before, after, chain, no, yes, prevAddr⟩ := spec cur stopped
      refine ⟨node :: before, after, by simp [chain], by simpa [hit] using no, yes, ?_⟩
      rw [prevAddr]
      cases before with
      | nil => simp
      | cons b bs => simp [List.getLast?_cons]

theorem search_eq_find (skip found : α → Bool) (l : LinkedList α)
    (plain : ∀ a ∈ l.items, skip a = false) :
    (search skip found none l.nodes).2.map Node.data = l.items.find? found := by
  have each : ∀ node ∈ l.nodes, skip node.data = false := fun node member =>
    plain node.data (List.mem_map_of_mem member)
  rw [(search_append skip found l.nodes none each).1, items, List.find?_map]
  rfl

/-- Removing behind the node that a search remembered erases the item it found. -/
theorem Wf.removeNext_found {l : LinkedList α} (wf : Wf l) (skip found : α → Bool)
    (plain : ∀ a ∈ l.items, skip a = false) (cur : Node α)
    (stopped : (search skip found none l.nodes).2 = some cur) :
    ∃ l', removeNext l (search skip found none l.nodes).1 = some (cur.data, l') ∧ Wf l' ∧
      l'.items = l.items.eraseP found := by
  have each : ∀ node ∈ l.nodes, skip node.data = false := fun node member =>
    plain node.data (List.mem_map_of_mem member)
  obtain ⟨before, after, chain, no, yes, prev⟩ :=
    (search_append skip found l.nodes none each).2 cur stopped
  rw [prev, Option.or_none]
  obtain ⟨l', removed, wf', nodes⟩ := wf.removeNext_prev before after cur chain
  refine ⟨l', removed, wf', ?_⟩
  have passed : ∀ b ∈ before.map Node.data, ¬ found b = true := by
    intro b member
    obtain ⟨node, here, rfl⟩ := List.mem_map.mp member
    simp [no node here]
  rw [items, nodes, items, chain, List.map_append, List.map_append, List.map_cons,
    List.eraseP_append_right _ passed, List.eraseP_cons_of_pos yes]

end LinkedList
