/-!
# Elements of a markup language

A tree of elements with attributes and texts, how it is written, and what has to be
escaped in the values which are put into it.
-/
namespace Xml

/-- The characters which start a reference or a tag, or end an attribute. -/
def special (c : Char) : Bool := c == '&' || c == '<' || c == '"'

inductive Node where
  | text (chars : List Char)
  | element (name : List Char) (attributes : List (List Char × List Char)) (children : List Node)

def renderAttributes (attributes : List (List Char × List Char)) : List Char :=
  attributes.flatMap fun (key, value) => ' ' :: key ++ '=' :: '"' :: value ++ ['"']

mutual

def Node.render : Node → List Char
  | .text chars => chars
  | .element name attributes children =>
    '<' :: name ++ renderAttributes attributes ++ '>' :: renderAll children ++
      '<' :: '/' :: name ++ ['>']

def renderAll : List Node → List Char
  | [] => []
  | node :: rest => node.render ++ renderAll rest

end

mutual

/-- The values of attributes and the texts. -/
def Node.values : Node → List (List Char)
  | .text chars => [chars]
  | .element _ attributes children => attributes.map (·.2) ++ valuesAll children

def valuesAll : List Node → List (List Char)
  | [] => []
  | node :: rest => node.values ++ valuesAll rest

end

/-- An element with a text in it. -/
def leaf (name chars : List Char) : Node := .element name [] [.text chars]

def Plain (chars : List Char) : Prop := ∀ c ∈ chars, special c = false

instance : DecidablePred Plain := fun _ => List.decidableBAll _ _

/-- No value needs a reference. -/
def Node.Escaped (node : Node) : Prop := ∀ value ∈ node.values, Plain value

theorem render_leaf (name chars : List Char) :
    (leaf name chars).render =
      '<' :: (name ++ '>' :: (chars ++ '<' :: '/' :: (name ++ ['>']))) := by
  simp [leaf, Node.render, renderAll, renderAttributes]

theorem values_leaf (name chars : List Char) : (leaf name chars).values = [chars] := by
  simp [leaf, Node.values, valuesAll]

theorem renderAll_append (front back : List Node) :
    renderAll (front ++ back) = renderAll front ++ renderAll back := by
  induction front with
  | nil => rfl
  | cons node rest ih => rw [List.cons_append, renderAll, renderAll, ih, List.append_assoc]

theorem mem_valuesAll {nodes : List Node} {value : List Char} :
    value ∈ valuesAll nodes ↔ ∃ node ∈ nodes, value ∈ node.values := by
  induction nodes with
  | nil => simp [valuesAll]
  | cons node rest ih => simp [valuesAll, ih]

theorem escaped_element {name : List Char} {attributes : List (List Char × List Char)}
    {children : List Node} :
    (Node.element name attributes children).Escaped ↔
      (∀ pair ∈ attributes, Plain pair.2) ∧ ∀ child ∈ children, child.Escaped := by
  -- the values of an element are those of its attributes and of its children
  constructor
  · intro escaped
    constructor
    · intro pair member
      apply escaped
      rw [Node.values]
      exact List.mem_append_left _ (List.mem_map_of_mem member)
    · intro child member value there
      apply escaped
      rw [Node.values]
      exact List.mem_append_right _ (mem_valuesAll.mpr ⟨child, member, there⟩)
  · rintro ⟨plain, below⟩ value member
    rw [Node.values, List.mem_append] at member
    rcases member with given | inside
    · obtain ⟨pair, there, rfl⟩ := List.mem_map.mp given
      exact plain pair there
    · obtain ⟨child, there, inside⟩ := mem_valuesAll.mp inside
      exact below child there value inside

theorem escaped_leaf {name chars : List Char} : (leaf name chars).Escaped ↔ Plain chars := by
  rw [Node.Escaped, values_leaf]
  simp

end Xml
