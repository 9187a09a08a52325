import LcfgCore.Resources.TagNodes

/-!
# Sets made from tag lists

The operations which make a new list with tags of one or two others
(`resources/tags/list.c`), over the linked nodes.

## Main results

* `collectLoop_spec`: the loop which all of them share appends the tags which are wanted to the
  new list, and writes to no node but those of the new list.
* `setUnique_spec`, `setUnion_spec`, `setIntersection_spec`, `setSubtract_spec`: each operation
  returns what the one for lists of names does, if its size can be counted.
* `set_laws_iff`: the new lists are sets, in order, and two of the kinds are parts of the third, if
  and only if an `unsigned int` can count the different tags.
-/
namespace Lcfg

namespace TagNodes

open DLinked (Node Heap Linked first last addresses)

/-- Whether a tag is appended to the new list: it has a name, it is wanted, and the list does not
contain it. -/
def appends (wanted : TagMemory → String → Option Bool) (mem : TagMemory) (result : TagListHead)
    (curTag : LCFGTag) : Option Bool := do
  if !Tag.isValid curTag then return false
  if !(← wanted mem curTag.name) then return false
  return !(← contains mem result curTag.name)

/-- The loop over at most `fuel` nodes. -/
def collectLoop (wanted : TagMemory → String → Option Bool) :
    Nat → Option Nat → TagMemory → TagListHead → LCFGChange →
      Option (TagMemory × TagListHead × LCFGChange)
  | 0, _, _, _, _ => none
  | _ + 1, none, mem, result, change => some (mem, result, change)
  | fuel + 1, some curNode, mem, result, change =>
    if change = .error then some (mem, result, change)
    else do
      let curTag := (← mem.nodes curNode).data
      let (mem, result, change) ←
        if ← appends wanted mem result curTag then appendTag mem result curTag
        else some (mem, result, change)
      collectLoop wanted fuel (← mem.nodes curNode).next mem result change

/-- A list with an error is given up. -/
def collected : TagMemory × TagListHead × LCFGChange → TagMemory × Option TagListHead
  | (mem, result, change) => (mem, if change = .error then none else some result)

/-- A loop over all nodes of a list. -/
def collect (wanted : TagMemory → String → Option Bool) (mem : TagMemory) (taglist : TagListHead)
    (result : TagListHead) : Option (TagMemory × Option TagListHead) :=
  (collectLoop wanted (mem.fresh + 1) taglist.head mem result .none).map collected

/-- `lcfgtaglist_set_unique` -/
def setUnique (mem : TagMemory) (taglist : TagListHead) :
    Option (TagMemory × Option TagListHead) := collect (fun _ _ => some true) mem taglist {}

/-- `lcfgtaglist_set_union`; nothing can be appended if the first list has been given up. -/
def setUnion (mem : TagMemory) (taglist1 taglist2 : TagListHead) :
    Option (TagMemory × Option TagListHead) := do
  let (mem, result) ← (if isEmpty taglist1 then some (mem, some {}) else setUnique mem taglist1)
  match result with
  | none => if taglist2.head = none then some (mem, none) else none
  | some result => collect (fun _ _ => some true) mem taglist2 result

/-- `lcfgtaglist_set_intersection` -/
def setIntersection (mem : TagMemory) (taglist1 taglist2 : TagListHead) :
    Option (TagMemory × Option TagListHead) :=
  collect (fun mem name => contains mem taglist2 name) mem taglist1 {}

/-- `lcfgtaglist_set_subtract` -/
def setSubtract (mem : TagMemory) (taglist1 taglist2 : TagListHead) :
    Option (TagMemory × Option TagListHead) :=
  collect (fun mem name => (contains mem taglist2 name).map not) mem taglist1 {}

/-! ## Lists of names -/

def names (cells : List (Nat × LCFGTag)) : LCFGTagList := (DLinked.items cells).map LCFGTag.name

@[simp] theorem names_cons (a : Nat) (tag : LCFGTag) (cells : List (Nat × LCFGTag)) :
    names ((a, tag) :: cells) = tag.name :: names cells := rfl

@[simp] theorem names_append (xs ys : List (Nat × LCFGTag)) :
    names (xs ++ ys) = names xs ++ names ys := by
  rw [names, DLinked.items, List.map_append, List.map_append]
  rfl

@[simp] theorem length_names (cells : List (Nat × LCFGTag)) :
    (names cells).length = cells.length := by
  rw [names, DLinked.items, List.length_map, List.length_map]

/-- The list has tags with these names, and its size counts them. -/
def IsList (mem : TagMemory) (taglist : TagListHead) (tags : LCFGTagList) : Prop :=
  ∃ cells, Chained mem taglist cells ∧ cells.length < 2 ^ 32 ∧ names cells = tags

theorem contains_names {mem : TagMemory} {taglist : TagListHead} {cells : List (Nat × LCFGTag)}
    (chained : Chained mem taglist cells) (unused : Unused mem) (few : cells.length < 2 ^ 32)
    (name : String) : contains mem taglist name = some (TagList.contains (names cells) name) := by
  have any : (DLinked.items cells).any (fun tag => Tag.match tag name) =
      TagList.contains (names cells) name := by
    rw [TagList.contains, names, List.any_map]
    rfl
  rw [contains_eq chained unused, any]
  cases empty : isEmpty taglist with
  | false => rfl
  | true =>
    rw [(isEmpty_iff chained few).mp empty]
    rfl

/-! ## The loop -/

/-- A new list is built, and no node which has been there before is written to. -/
structure Builds (mem mem' : TagMemory) (result : TagListHead) (cells : List (Nat × LCFGTag)) :
    Prop where
  unused : Unused mem'
  fresh : mem.fresh ≤ mem'.fresh
  same : ∀ a, a < mem.fresh → mem'.nodes a = mem.nodes a
  chained : Chained mem' result cells
  new : ∀ a ∈ addresses cells, mem.fresh ≤ a

section Loop

variable {mem mem' : TagMemory} {taglist result : TagListHead} {cells : List (Nat × LCFGTag)}

theorem builds_nil (unused : Unused mem) : Builds mem mem {} [] :=
  ⟨unused, Nat.le_refl _, fun _ _ => rfl, ⟨trivial, rfl, rfl, rfl, nofun⟩, nofun⟩

/-- The lists which have been there before are as they were. -/
theorem Builds.keeps (builds : Builds mem mem' result cells) (unused : Unused mem)
    {old : List (Nat × LCFGTag)} (chained : Chained mem taglist old) :
    Chained mem' taglist old := by
  refine ⟨chained.linked.frame fun a member => ?_, chained.head, chained.tail, chained.size,
    chained.valid⟩
  exact builds.same a (chained.below unused a member)

theorem Builds.append (builds : Builds mem mem' result cells) {tag : LCFGTag}
    (valid : Tag.isValid tag = true) :
    ∃ mem'' result', appendTag mem' result tag = some (mem'', result', .added) ∧
      Builds mem mem'' result' (cells ++ [(mem'.fresh, tag)]) := by
  obtain ⟨mem'', result', done, after, unused', fresh, same⟩ :=
    builds.chained.appendTag builds.unused valid
  have older := builds.fresh
  refine ⟨mem'', result', done, unused', by omega, fun a old => ?_, after, fun a member => ?_⟩
  · have outside : a ∉ addresses cells := fun inside => Nat.not_lt.mpr (builds.new a inside) old
    rw [same a (Nat.lt_of_lt_of_le old older) outside, builds.same a old]
  · rw [DLinked.addresses_append, List.mem_append] at member
    rcases member with before | last
    · exact builds.new a before
    · obtain rfl : a = mem'.fresh := List.mem_singleton.mp last
      exact older

/-- While the tags can be counted, the test in the loop is that for lists of names. -/
theorem appends_eq {wanted : TagMemory → String → Option Bool} {keep : String → Bool} {tag : LCFGTag}
    (builds : Builds mem mem' result cells) (few : cells.length < 2 ^ 32)
    (valid : Tag.isValid tag = true) (wants : wanted mem' tag.name = some (keep tag.name)) :
    appends wanted mem' result tag =
      some (keep tag.name && !TagList.contains (names cells) tag.name) := by
  rw [appends, valid, wants]
  cases keep tag.name with
  | false => rfl
  | true =>
    change (contains mem' result tag.name).bind _ = _
    rw [contains_names builds.chained builds.unused few]
    rfl

/-- The tags which are wanted are appended as those of a list of names are. -/
theorem collectLoop_spec {wanted : TagMemory → String → Option Bool} {keep : String → Bool}
    (unused : Unused mem)
    (wants : ∀ mem' result cells, Builds mem mem' result cells → ∀ name,
      wanted mem' name = some (keep name))
    {p : Option Nat} {source : List (Nat × LCFGTag)} (linked : Linked mem.nodes p source none)
    (valid : ∀ cell ∈ source, Tag.isValid cell.2 = true) (builds : Builds mem mem' result cells)
    (few : (TagList.collect keep (names cells) (names source)).length < 2 ^ 32)
    {fuel : Nat} (enough : source.length < fuel) {change : LCFGChange} (fine : change ≠ .error) :
    ∃ mem'' result' cells' change',
      collectLoop wanted fuel (first source none) mem' result change =
        some (mem'', result', change') ∧ change' ≠ .error ∧ Builds mem mem'' result' cells' ∧
      names cells' = TagList.collect keep (names cells) (names source) := by
  induction source generalizing p mem' result cells fuel change with
  | nil =>
    obtain ⟨fuel, rfl⟩ : ∃ m, fuel = m + 1 := ⟨fuel - 1, by omega⟩
    exact ⟨mem', result, cells, change, rfl, fine, builds, rfl⟩
  | cons cell rest ih =>
    obtain ⟨a, tag⟩ := cell
    obtain ⟨fuel, rfl⟩ : ∃ m, fuel = m + 1 := ⟨fuel - 1, by omega⟩
    rw [List.length_cons] at enough
    -- the node of the other list is still there, whatever has been appended
    have node {mem'' : TagMemory} {result' : TagListHead} {cells' : List (Nat × LCFGTag)}
        (builds' : Builds mem mem'' result' cells') :
        mem''.nodes a = some ⟨tag, p, first rest none⟩ := by
      rw [builds'.same a (unused.below (linked.used List.mem_cons_self))]
      exact linked.1
    have short : cells.length < 2 ^ 32 := by
      rw [← length_names]
      exact Nat.lt_of_le_of_lt (TagList.length_le_collect ..) few
    have good : Tag.isValid tag = true := valid (a, tag) List.mem_cons_self
    have test := appends_eq builds short good (wants _ _ _ builds tag.name)
    have valid' : ∀ cell ∈ rest, Tag.isValid cell.2 = true := fun cell member =>
      valid cell (List.mem_cons_of_mem _ member)
    rw [names_cons, TagList.collect] at few ⊢
    rw [first, collectLoop, if_neg fine, node builds, Option.bind_eq_bind, Option.bind_some]
    dsimp only
    rw [test, Option.bind_eq_bind, Option.bind_some]
    cases kept : keep tag.name && !TagList.contains (names cells) tag.name with
    | true =>
      rw [kept, if_pos rfl] at few
      obtain ⟨mem'', result', done, builds'⟩ := builds.append good
      rw [if_pos rfl, if_pos rfl, done, Option.bind_eq_bind, Option.bind_some]
      dsimp only
      rw [node builds', Option.bind_some]
      have names' : names (cells ++ [(mem'.fresh, tag)]) = names cells ++ [tag.name] :=
        names_append _ _
      rw [← names'] at few ⊢
      exact ih linked.2 valid' builds' few (by omega) (by decide)
    | false =>
      rw [kept, if_neg Bool.false_ne_true] at few
      rw [if_neg Bool.false_ne_true, if_neg Bool.false_ne_true, Option.bind_eq_bind,
        Option.bind_some]
      dsimp only
      rw [node builds, Option.bind_some]
      exact ih linked.2 valid' builds few (by omega) fine

theorem collect_spec {wanted : TagMemory → String → Option Bool} {keep : String → Bool}
    (unused : Unused mem)
    (wants : ∀ mem' result cells, Builds mem mem' result cells → ∀ name,
      wanted mem' name = some (keep name))
    {source : List (Nat × LCFGTag)} (chained : Chained mem taglist source)
    (builds : Builds mem mem' result cells)
    (few : (TagList.collect keep (names cells) (names source)).length < 2 ^ 32) :
    ∃ mem'' result' cells', collect wanted mem' taglist result = some (mem'', some result') ∧
      Builds mem mem'' result' cells' ∧
      names cells' = TagList.collect keep (names cells) (names source) := by
  have enough := Nat.le_trans (chained.length_le unused) builds.fresh
  obtain ⟨mem'', result', cells', change', done, fine, builds', collected_⟩ :=
    collectLoop_spec unused wants chained.linked chained.valid builds few
      (Nat.lt_succ_of_le enough) (by decide : LCFGChange.none ≠ .error)
  refine ⟨mem'', result', cells', ?_, builds', collected_⟩
  rw [collect, chained.head, done, Option.map_some, collected, if_neg fine]

end Loop

/-! ## The operations -/

/-- A call returns a new list with these names, and leaves all nodes which have been there as
they were. -/
def Returns (mem : TagMemory) (outcome : Option (TagMemory × Option TagListHead))
    (tags : LCFGTagList) : Prop :=
  ∃ mem' result, outcome = some (mem', some result) ∧ IsList mem' result tags ∧
    ∀ a node, mem.nodes a = some node → mem'.nodes a = some node

section Operations

variable {mem : TagMemory} {taglist1 taglist2 : TagListHead} {a b : LCFGTagList}

theorem Builds.returns {mem' : TagMemory} {result : TagListHead} {cells : List (Nat × LCFGTag)}
    (builds : Builds mem mem' result cells) (unused : Unused mem) {tags : LCFGTagList}
    (named : names cells = tags) (few : tags.length < 2 ^ 32) :
    Returns mem (some (mem', some result)) tags := by
  refine ⟨mem', result, rfl, ⟨cells, builds.chained, ?_, named⟩, fun a node here => ?_⟩
  · rw [← length_names, named]
    exact few
  · rw [builds.same a (unused.below (by rw [here]; nofun))]
    exact here

theorem IsList.short (list1 : IsList mem taglist1 a) : a.length < 2 ^ 32 := by
  obtain ⟨cells, -, few, rfl⟩ := list1
  rwa [length_names]

variable (unused : Unused mem) (list1 : IsList mem taglist1 a)
include unused list1

/-- An operation which looks at one list and begins with a new one. -/
theorem collect_returns {wanted : TagMemory → String → Option Bool} {keep : String → Bool}
    (wants : ∀ mem' result cells, Builds mem mem' result cells → ∀ name,
      wanted mem' name = some (keep name)) :
    Returns mem (collect wanted mem taglist1 {}) (TagList.collect keep [] a) := by
  have selects := TagList.collect_selects keep .nil a
  have few := Nat.lt_of_le_of_lt selects.length_le list1.short
  obtain ⟨cells, chained, -, rfl⟩ := list1
  obtain ⟨mem', result, cells', done, builds, named⟩ :=
    collect_spec unused wants chained (builds_nil unused) few
  rw [done]
  exact builds.returns unused named few

theorem setUnique_spec : Returns mem (setUnique mem taglist1) (TagList.setUnique a) :=
  collect_returns unused list1 fun _ _ _ _ _ => rfl

variable (list2 : IsList mem taglist2 b)
include list2

omit list1 in
/-- While the new list is built, the other list can be searched. -/
theorem contains_other {mem' : TagMemory} {result : TagListHead} {cells : List (Nat × LCFGTag)}
    (builds : Builds mem mem' result cells) (name : String) :
    contains mem' taglist2 name = some (TagList.contains b name) := by
  obtain ⟨cells2, chained, few, rfl⟩ := list2
  exact contains_names (builds.keeps unused chained) builds.unused few name

theorem setIntersection_spec :
    Returns mem (setIntersection mem taglist1 taglist2) (TagList.setIntersection a b) := by
  apply collect_returns unused list1
  exact fun mem' result cells builds name => contains_other unused list2 builds name

theorem setSubtract_spec :
    Returns mem (setSubtract mem taglist1 taglist2) (TagList.setSubtract a b) := by
  apply collect_returns unused list1
  intro mem' result cells builds name
  rw [contains_other unused list2 builds name]
  rfl

theorem setUnion_spec (few : (TagList.setUnion a b).length < 2 ^ 32) :
    Returns mem (setUnion mem taglist1 taglist2) (TagList.setUnion a b) := by
  have short : (TagList.setUnique a).length < 2 ^ 32 :=
    Nat.lt_of_le_of_lt (TagList.length_le_collect ..) few
  obtain ⟨cells1, chained1, few1, rfl⟩ := list1
  obtain ⟨cells2, chained2, few2, rfl⟩ := list2
  -- the first list, each tag once
  obtain ⟨mem1, result1, cells, first_, builds, named⟩ : ∃ mem1 result1 cells,
      (if isEmpty taglist1 then some (mem, some {}) else setUnique mem taglist1) =
        some (mem1, some result1) ∧
      Builds mem mem1 result1 cells ∧ names cells = TagList.setUnique (names cells1) := by
    cases empty : isEmpty taglist1 with
    | true =>
      rw [(isEmpty_iff chained1 few1).mp empty]
      exact ⟨mem, {}, [], rfl, builds_nil unused, rfl⟩
    | false => exact collect_spec unused (fun _ _ _ _ _ => rfl) chained1 (builds_nil unused) short
  rw [TagList.setUnion, ← named] at few ⊢
  obtain ⟨mem2, result2, cells', second, builds', named'⟩ :=
    collect_spec unused (fun _ _ _ _ _ => rfl) chained2 builds few
  rw [setUnion, first_, Option.bind_eq_bind, Option.bind_some]
  dsimp only
  rw [second]
  exact builds'.returns unused named' few

omit unused list1 list2

/-- Each operation returns the names which it is to select, in the order of the first list and
then of the second, and the names in both lists and in one of them only are the parts of all. -/
def SetLaws (mem : TagMemory) (taglist1 taglist2 : TagListHead) (a b : LCFGTagList) : Prop :=
  ∃ unique all both first second : LCFGTagList,
    (Returns mem (setUnique mem taglist1) unique ∧ Selects (fun _ => True) a unique) ∧
    (Returns mem (setUnion mem taglist1 taglist2) all ∧ Selects (fun _ => True) (a ++ b) all) ∧
    (Returns mem (setIntersection mem taglist1 taglist2) both ∧ Selects (· ∈ b) a both) ∧
    (Returns mem (setSubtract mem taglist1 taglist2) first ∧ Selects (· ∉ b) a first) ∧
    (Returns mem (setSubtract mem taglist2 taglist1) second ∧ Selects (· ∉ a) b second) ∧
    (both ++ first ++ second).Perm all

/-- A union which is returned can be counted. -/
theorem SetLaws.few (laws : SetLaws mem taglist1 taglist2 a b) :
    (a ++ b).dedup.length < 2 ^ 32 := by
  obtain ⟨_, all, _, _, _, -, ⟨⟨mem', result, -, list, -⟩, selects⟩, -⟩ := laws
  rw [← selects.length_eq]
  exact list.short

/-- The operations make the sets they are to make if and only if the tags of both lists, each
counted once, can be counted. -/
theorem set_laws_iff (unused : Unused mem) (list1 : IsList mem taglist1 a)
    (list2 : IsList mem taglist2 b) :
    SetLaws mem taglist1 taglist2 a b ↔ (a ++ b).dedup.length < 2 ^ 32 := by
  constructor
  · exact SetLaws.few
  · intro few
    have union := TagList.setUnion_selects a b
    have both := TagList.setIntersection_selects a b
    have first := TagList.setSubtract_selects a b
    have second := TagList.setSubtract_selects b a
    refine ⟨_, _, _, _, _,
      ⟨setUnique_spec unused list1, TagList.setUnique_selects a⟩,
      ⟨setUnion_spec unused list1 list2 ?_, union⟩,
      ⟨setIntersection_spec unused list1 list2, both⟩,
      ⟨setSubtract_spec unused list1 list2, first⟩,
      ⟨setSubtract_spec unused list2 list1, second⟩,
      both.partition first second union⟩
    rw [union.length_eq]
    exact few

/-- Two nodes of a list, and one of another. -/
def threeNodes : TagMemory where
  nodes
    | 0 => some { data := ⟨"dhcp", by decide⟩, next := some 1 }
    | 1 => some { data := ⟨"ntp", by decide⟩, prev := some 0 }
    | 2 => some { data := ⟨"ntp", by decide⟩ }
    | _ => none
  fresh := 3

theorem set_laws_three :
    SetLaws threeNodes ⟨some 0, some 1, 2⟩ ⟨some 2, some 2, 1⟩ ["dhcp", "ntp"] ["ntp"] := by
  apply (set_laws_iff ?_ ?_ ?_).mpr (by decide)
  · rintro (_ | _ | _ | a) above
    · cases above
    · exact absurd above (by decide)
    · exact absurd above (by decide)
    · rfl
  · exact ⟨[(0, ⟨"dhcp", by decide⟩), (1, ⟨"ntp", by decide⟩)],
      ⟨⟨rfl, rfl, trivial⟩, rfl, rfl, rfl, by decide⟩, by decide, rfl⟩
  · exact ⟨[(2, ⟨"ntp", by decide⟩)], ⟨⟨rfl, trivial⟩, rfl, rfl, rfl, by decide⟩, by decide, rfl⟩

/-! ## Lists which are too long together -/

/-- There is room for a list with any valid names. -/
theorem build_list (unused : Unused mem) {tags : LCFGTagList}
    (valid : ∀ tag ∈ tags, TagList.validTag tag = true) :
    ∃ mem' taglist cells, Builds mem mem' taglist cells ∧ names cells = tags := by
  induction tags using List.reverseRecOn with
  | nil => exact ⟨mem, {}, [], builds_nil unused, rfl⟩
  | append_singleton tags tag ih =>
    obtain ⟨mem', taglist, cells, builds, rfl⟩ := ih fun tag member =>
      valid tag (List.mem_append_left _ member)
    have good := valid tag (List.mem_append_right _ (List.mem_singleton_self tag))
    have named : Tag.isValid ⟨tag, .inr good⟩ = true := by
      rw [TagList.validTag, Bool.and_eq_true] at good
      exact good.1
    obtain ⟨mem'', taglist', -, builds'⟩ := builds.append named
    exact ⟨mem'', taglist', _, builds', names_append _ _⟩

theorem longName_valid (i : Nat) : TagList.validTag (longName i) = true := by
  rw [TagList.validTag, Bool.and_eq_true, bne_iff_ne]
  exact ⟨longName_ne_empty i, longName_word i⟩

theorem union_of_halves_wrong :
    ¬ ∀ mem taglist1 taglist2 a b, Unused mem → IsList mem taglist1 a → IsList mem taglist2 b →
      SetLaws mem taglist1 taglist2 a b := by
  intro laws
  obtain ⟨n, half⟩ : ∃ n, n = 2 ^ 31 := ⟨_, rfl⟩
  have valid (start : Nat) : ∀ tag ∈ (List.range' start n).map longName,
      TagList.validTag tag = true := by
    intro tag member
    obtain ⟨i, -, rfl⟩ := List.mem_map.mp member
    exact longName_valid i
  have few {cells : List (Nat × LCFGTag)} {start : Nat}
      (named : names cells = (List.range' start n).map longName) : cells.length < 2 ^ 32 := by
    rw [← length_names, named, List.length_map, List.length_range']
    omega
  obtain ⟨mem1, taglist1, cells1, builds1, named1⟩ := build_list unused_new (valid 0)
  obtain ⟨mem2, taglist2, cells2, builds2, named2⟩ := build_list builds1.unused (valid n)
  have laws := laws mem2 taglist1 taglist2 _ _ builds2.unused
    ⟨cells1, builds2.keeps builds1.unused builds1.chained, few named1, named1⟩
    ⟨cells2, builds2.chained, few named2, named2⟩
  have total := laws.few
  have joined : List.range' 0 n ++ List.range' n n = List.range' 0 (n + n) := by
    have append : List.range' 0 n ++ List.range' (0 + n) n = List.range' 0 (n + n) :=
      List.range'_append_1
    rwa [Nat.zero_add] at append
  rw [← List.map_append, joined,
    (List.Nodup.map longName_injective List.nodup_range').dedup, List.length_map,
    List.length_range'] at total
  omega

end Operations

end TagNodes

end Lcfg
