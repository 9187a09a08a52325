import LcfgCore.Library.Outcome
import Mathlib.Data.List.Basic

/-!
# Reading trees from a stream of nodes

A pull parser walks through the tree of a document and shows one node after another, each
with its depth. A program which reads such a stream has a loop for each kind of element:
a round looks at one node, may call the loop for the elements below, and leaves the reader
on the last node which it has used. The end of the stream ends every loop.

## Main results

`loop_behind`: a loop whose rounds handle a tree each goes through an element as a fold over the
trees below it. `loop_agree`: rounds which agree make loops which agree, and which have enough
rounds for any nodes.
-/
namespace XmlReader

/-- The types of nodes without any nodes below them. -/
inductive LeafType where
  | text | cdata | entityReference | processingInstruction | comment | documentType
  | whitespace | significantWhitespace | endEntity
deriving DecidableEq, Repr

inductive NodeType where
  | element | endElement
  | leaf (type : LeafType)
deriving DecidableEq, Repr

/-- The numbers of the types (`xmlReaderTypes`). -/
def NodeType.number : NodeType → Nat
  | .element => 1
  | .leaf .text => 3
  | .leaf .cdata => 4
  | .leaf .entityReference => 5
  | .leaf .processingInstruction => 7
  | .leaf .comment => 8
  | .leaf .documentType => 10
  | .leaf .whitespace => 13
  | .leaf .significantWhitespace => 14
  | .endElement => 15
  | .leaf .endEntity => 16

structure Node where
  type : NodeType
  depth : Nat
  name : String
  value : String := ""
  attributes : List (String × String) := []
  emptyElement : Bool := false
  line : Nat
deriving DecidableEq, Repr

/-- `xmlTextReaderGetAttribute` -/
def Node.attribute (node : Node) (key : String) : Option String := node.attributes.lookup key

/-- Neither text to be ignored nor to be kept. -/
def NodeType.isWhitespace : NodeType → Bool
  | .leaf .whitespace | .leaf .significantWhitespace => true
  | _ => false

/-! ## Trees -/

/-- What may stand below an element. A closed element has no end of its own. -/
inductive Tree where
  | leaf (type : LeafType) (name value : String) (line : Nat)
  | closed (name : String) (attributes : List (String × String)) (line : Nat)
  | element (name : String) (attributes : List (String × String)) (children : List Tree)
    (line endLine : Nat)

namespace Tree

/-- The node with which the reader comes to a tree. -/
def first (depth : Nat) : Tree → Node
  | .leaf type name value line => { type := .leaf type, depth, name, value, line }
  | .closed name attributes line =>
    { type := .element, depth, name, attributes, emptyElement := true, line }
  | .element name attributes _ line _ => { type := .element, depth, name, attributes, line }

def isLeaf : Tree → Bool
  | .leaf .. => true
  | _ => false

@[simp] theorem first_depth (depth : Nat) (tree : Tree) : (tree.first depth).depth = depth := by
  cases tree <;> rfl

theorem first_type {tree : Tree} (element : tree.isLeaf = false) (depth : Nat) :
    (tree.first depth).type = .element := by
  cases tree with
  | leaf => cases element
  | closed => rfl
  | element => rfl

/-- The node with which the reader leaves a tree. -/
def last (depth : Nat) : Tree → Node
  | .element name _ _ _ endLine => { type := .endElement, depth, name, line := endLine }
  | tree => tree.first depth

mutual

/-- The nodes behind the first one. -/
def behind (depth : Nat) : Tree → List Node
  | .leaf .. | .closed .. => []
  | .element name _ children _ endLine =>
    nodesAll (depth + 1) children ++ [{ type := .endElement, depth, name, line := endLine }]

/-- The nodes of trees side by side. -/
def nodesAll (depth : Nat) : List Tree → List Node
  | [] => []
  | tree :: rest => tree.first depth :: (behind depth tree ++ nodesAll depth rest)

end

/-- The nodes of a tree. -/
def nodes (depth : Nat) (tree : Tree) : List Node := tree.first depth :: behind depth tree

theorem nodesAll_cons (depth : Nat) (tree : Tree) (rest : List Tree) :
    nodesAll depth (tree :: rest) = tree.nodes depth ++ nodesAll depth rest := by
  rw [nodesAll, nodes, List.cons_append]

mutual

/-- The levels of elements. -/
def height : Tree → Nat
  | .leaf .. | .closed .. => 0
  | .element _ _ children _ _ => heightAll children + 1

def heightAll : List Tree → Nat
  | [] => 0
  | tree :: rest => max tree.height (heightAll rest)

end

theorem height_le {children : List Tree} {child : Tree} (member : child ∈ children) :
    child.height ≤ heightAll children := by
  induction children with
  | nil => cases member
  | cons tree rest ih =>
    rw [heightAll]
    rcases List.mem_cons.mp member with rfl | later
    · exact Nat.le_max_left _ _
    · exact Nat.le_trans (ih later) (Nat.le_max_right _ _)

end Tree

/-! ## Loops -/

/-- What a round comes to: the reader is on the first of the nodes. -/
structure Round (σ : Type) where
  state : σ
  reader : List Node
  done : Bool := false

section Loops

variable {σ ε : Type} (stuck : ε) (round : σ → Node → List Node → Except ε (Round σ))

/-- At most `n` rounds, up to the one which is the last, or to the end of the nodes. -/
def loop : Nat → σ → List Node → Except ε (σ × List Node)
  | _, s, [] => .ok (s, [])
  | 0, _, _ :: _ => .error stuck
  | n + 1, s, node :: rest =>
    match round s node rest with
    | .error e => .error e
    | .ok r => if r.done then .ok (r.state, r.reader) else loop n r.state r.reader.tail

variable {stuck round}

open Tree (nodesAll behind)

/-- The loop goes through trees side by side, and ends with the node behind them. -/
theorem loop_nodesAll {handle : σ → Tree → Except ε σ} {depth n : Nat} {children : List Tree}
    {s : σ} {end_ : Node} {rest : List Node}
    (handles : ∀ s, ∀ child ∈ children, ∀ more,
      round s (child.first depth) (behind depth child ++ more) =
        (handle s child).map fun s => { state := s, reader := child.last depth :: more })
    (ends : ∀ s, round s end_ rest = .ok { state := s, reader := end_ :: rest, done := true })
    (enough : (nodesAll depth children).length < n) :
    loop stuck round n s (nodesAll depth children ++ end_ :: rest) =
      (children.foldlM handle s).map fun s => (s, end_ :: rest) := by
  induction children generalizing s n with
  | nil =>
    obtain ⟨n, rfl⟩ := Nat.exists_eq_succ_of_ne_zero (Nat.ne_of_gt (Nat.zero_lt_of_lt enough))
    rw [nodesAll, List.nil_append, loop, ends]
    rfl
  | cons child children ih =>
    obtain ⟨n, rfl⟩ := Nat.exists_eq_succ_of_ne_zero (Nat.ne_of_gt (Nat.zero_lt_of_lt enough))
    rw [nodesAll, List.length_cons, List.length_append] at enough
    rw [nodesAll, List.cons_append, List.append_assoc, loop,
      handles s child List.mem_cons_self, List.foldlM_cons]
    cases handle s child with
    | error e => rfl
    | ok next =>
      -- the reader has left the first tree
      exact ih (fun s later member => handles s later (List.mem_cons_of_mem _ member)) (by omega)

/-- The loop for an element goes up to its end. -/
theorem loop_behind {handle : σ → Tree → Except ε σ} {depth n : Nat} {name : String}
    {attributes : List (String × String)} {children : List Tree} {line endLine : Nat} {s : σ}
    {more : List Node}
    (handles : ∀ s, ∀ child ∈ children, ∀ more,
      round s (child.first (depth + 1)) (behind (depth + 1) child ++ more) =
        (handle s child).map fun s => { state := s, reader := child.last (depth + 1) :: more })
    (ends : ∀ s, round s { type := .endElement, depth, name, line := endLine } more =
      .ok { state := s, reader := { type := .endElement, depth, name, line := endLine } :: more,
            done := true })
    (enough : (behind depth (.element name attributes children line endLine)).length ≤ n) :
    loop stuck round n s (behind depth (.element name attributes children line endLine) ++ more) =
      (children.foldlM handle s).map fun s =>
        (s, Tree.last depth (.element name attributes children line endLine) :: more) := by
  rw [behind, List.length_append, List.length_singleton] at enough
  rw [behind, List.append_assoc]
  exact loop_nodesAll handles ends enough

/-- Loops agree if their rounds do, and leave the reader on the same node. No round takes the reader
back, so that there are rounds enough. -/
theorem loop_agree {τ : Type} {round' : τ → Node → List Node → Except ε (Round τ)}
    {allowed : ε → Prop} {belong : σ → τ → Prop} {n : Nat} {s : σ} {t : τ} {reader : List Node}
    (rounds : ∀ s t node rest, belong s t → rest.length < reader.length →
      Outcome.Agree allowed (fun r r' => belong r.state r'.state ∧
        (r'.reader, r'.done) = (r.reader, r.done) ∧ r.reader.length ≤ rest.length + 1)
        (round s node rest) (round' t node rest))
    (init : belong s t) (enough : reader.length ≤ n) :
    Outcome.Agree allowed (fun r r' => belong r.1 r'.1 ∧ r'.2 = r.2 ∧ r.2.length ≤ reader.length)
      (loop stuck round n s reader) (loop stuck round' n t reader) := by
  suffices all : ∀ (n : Nat) (s : σ) (t : τ) (left : List Node), belong s t → left.length ≤ n →
      left.length ≤ reader.length →
        Outcome.Agree allowed (fun r r' => belong r.1 r'.1 ∧ r'.2 = r.2 ∧ r.2.length ≤ left.length)
          (loop stuck round n s left) (loop stuck round' n t left) from
    all n s t reader init enough (Nat.le_refl _)
  intro n
  induction n with
  | zero =>
    intro s t left init enough _
    obtain rfl := List.length_eq_zero_iff.mp (Nat.le_zero.mp enough)
    exact .pure ⟨init, rfl, Nat.le_refl _⟩
  | succ n ih =>
    intro s t left init enough inside
    cases left with
    | nil => exact .pure ⟨init, rfl, Nat.le_refl _⟩
    | cons node rest =>
      rw [List.length_cons] at enough inside
      rw [loop, loop]
      obtain ⟨e, failed, failed', kind⟩ | ⟨r, r', done, done', together, same, shorter⟩ :=
        rounds s t node rest init inside
      · rw [failed, failed']
        exact .stop kind
      · rw [done, done']
        obtain ⟨reader, last⟩ := Prod.mk.inj same
        dsimp only
        rw [reader, last]
        split
        · exact .pure ⟨together, rfl, shorter⟩
        · -- the next round begins one node further on
          have fewer : r.reader.tail.length ≤ rest.length := by
            rw [List.length_tail]
            omega
          obtain stopped | ⟨x, y, done, done', belongs, equal, le⟩ :=
            ih r.state r'.state r.reader.tail together (by omega) (by omega)
          · exact .inl stopped
          · refine .inr ⟨x, y, done, done', belongs, equal, ?_⟩
            rw [List.length_cons]
            exact Nat.le_trans le (Nat.le_succ_of_le fewer)

end Loops

end XmlReader
