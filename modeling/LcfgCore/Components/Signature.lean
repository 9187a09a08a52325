import LcfgCore.Components.Store
import LcfgCore.Library.QSort
import LcfgCore.Resources.Text

/-!
# Signatures of component sets

The text over which the signature of a component set is computed: the components in the
order of their buckets, the first resources of each one sorted by name
(`lcfgcompset_signature`, `lcfgcomponent_update_signature`).

## Main results

`signature_canonical_iff`: for two sets of the same components and resources the text is
the same if the non-empty components are in the same order, no names of resources differ
only in case and first resources print the same; where these have no line breaks of their
own this is necessary, too.
-/
namespace Lcfg

namespace PlainComponent

/-- `lcfgcomponent_entry_cmp` -/
def entryCmp (res1 res2 : TypedResource) : Int :=
  strcasecmp (res1.name.getD "") (res2.name.getD "")

/-- `lcfgcomponent_update_signature`, after the entries have been sorted; it stops at a
resource without a text. -/
def updateSignature (comp : PlainComponent) (sorted : List TypedResource) : Option (List Char) :=
  (sorted.mapM fun res => TypedResource.toStatus res comp.name {} true).map List.flatten

/-- The resources of one name, the active one first. -/
def resourcesOf (res : Addr → TypedResource) (comp : PlainComponent) (name : String) :
    List TypedResource :=
  ((lists (base res) comp name).map fun list => list.items.map res).getD []

end PlainComponent

namespace CompSet

open PlainComponent (firsts entryCmp updateSignature resourcesOf active)

variable (store : Store)

/-- The components of a set in the order of the buckets. -/
def comps (set : LCFGComponentSet) : List PlainComponent :=
  (LinearProbe.stored set.components).map fun a => Component.value ⟨store.heap, store.comp a⟩

/-- What the components feed to MD5, one after another, each in one of the orders which
`qsort` may leave. -/
inductive Feeds : List PlainComponent → List Char → Prop where
  | nil : Feeds [] []
  | cons {comp : PlainComponent} {comps : List PlainComponent} {sorted : List TypedResource}
    {text more : List Char} (sorts : QSort.Sorts entryCmp (firsts store.res comp) sorted)
    (written : updateSignature comp sorted = some text) (rest : Feeds comps more) :
    Feeds (comp :: comps) (text ++ more)

/-- Whatever `qsort` does, both sets feed the same text. -/
def Canonical (set1 set2 : LCFGComponentSet) : Prop :=
  ∀ text1 text2, Feeds store (comps store set1) text1 → Feeds store (comps store set2) text2 →
    text1 = text2

/-- The same components, with the same resources of each name in some order. -/
structure SameContents (set1 set2 : LCFGComponentSet) : Prop where
  names : ∀ name, (∃ c ∈ comps store set1, c.name = name) ↔ ∃ c ∈ comps store set2, c.name = name
  resources : ∀ c1 ∈ comps store set1, ∀ c2 ∈ comps store set2, c1.name = c2.name →
    ∀ name, (resourcesOf store.res c1 name).Perm (resourcesOf store.res c2 name)

/-- The names of the components which have resources, in the order of the buckets. -/
def bucketOrder (set : LCFGComponentSet) : List (Option String) :=
  ((comps store set).filter fun c => c.entries ≠ 0).map fun c => c.name

/-- No two names of resources in one component differ only in case. -/
def NoTies (set : LCFGComponentSet) : Prop :=
  ∀ c ∈ comps store set, ∀ name1 name2, resourcesOf store.res c name1 ≠ [] →
    resourcesOf store.res c name2 ≠ [] → strcasecmp name1 name2 = 0 → name1 = name2

/-- The first resources of each name print the same. -/
def FirstsAgree (set1 set2 : LCFGComponentSet) : Prop :=
  ∀ c1 ∈ comps store set1, ∀ c2 ∈ comps store set2, c1.name = c2.name → ∀ name,
    ∀ r1 ∈ (resourcesOf store.res c1 name).head?, ∀ r2 ∈ (resourcesOf store.res c2 name).head?,
      TypedResource.toStatus r1 c1.name {} true = TypedResource.toStatus r2 c2.name {} true

/-- The first resources have no line breaks of their own. -/
def AllUnbroken (set : LCFGComponentSet) : Prop :=
  ∀ c ∈ comps store set, ∀ r ∈ firsts store.res c, TypedResource.Unbroken r

/-! ## One component -/

variable {hash : String → Nat} {store : Store}

open TypedResource (entryText)

/-- A component as it stands in a set: a well-formed table, with valid names. -/
structure Proper (hash : String → Nat) (store : Store) (c : PlainComponent) (compName : String) :
    Prop where
  tabled : PlainComponent.Tabled hash (base store.res) c
  named : c.name = some compName
  valid : Resource.validName (some compName) = true

/-- The names of resources are valid. -/
def ValidNames (store : Store) : Prop :=
  ∀ a name, (store.res a).name = some name → Resource.validName (some name) = true

theorem resourcesOf_head? (res : Addr → TypedResource) (c : PlainComponent) (name : String) :
    (resourcesOf res c name).head? = active res (some c) name := by
  rw [resourcesOf, active, Option.bind_some]
  cases PlainComponent.lists (base res) c name with
  | none => rfl
  | some list => simp [PlainComponent.first]

theorem resourcesOf_ne_nil {res : Addr → TypedResource} {c : PlainComponent} {name : String} :
    resourcesOf res c name ≠ [] ↔ ∃ r, active res (some c) name = some r := by
  rw [← resourcesOf_head?]
  cases resourcesOf res c name <;> simp

namespace Proper

variable {c c' : PlainComponent} {compName : String}

theorem first_name (proper : Proper hash store c compName) (validNames : ValidNames store)
    {r : TypedResource} (member : r ∈ firsts store.res c) :
    ∃ name, r.name = some name ∧ Resource.validName (some name) = true ∧
      active store.res (some c) name = some r := by
  obtain ⟨name, found⟩ := (PlainComponent.mem_firsts proper.tabled r).mp member
  have named := PlainComponent.active_name proper.tabled found
  refine ⟨name, named, ?_, found⟩
  -- a first resource is one of the store
  rw [active, Option.bind_some] at found
  obtain ⟨list, -, here⟩ := Option.bind_eq_some_iff.mp found
  obtain ⟨a, -, rfl⟩ := Option.map_eq_some_iff.mp here
  exact validNames a name named

theorem updateSignature_eq (proper : Proper hash store c compName) (validNames : ValidNames store)
    {sorted : List TypedResource} (among : sorted ⊆ firsts store.res c) :
    updateSignature c sorted = some ((sorted.map (entryText compName)).flatten) := by
  have texts : sorted.mapM (fun r => TypedResource.toStatus r c.name {} true) =
      some (sorted.map (entryText compName)) := by
    induction sorted with
    | nil => rfl
    | cons r rest ih =>
      rw [List.cons_subset] at among
      obtain ⟨name, named, valid, -⟩ := proper.first_name validNames among.1
      have here := TypedResource.toStatus_valid named proper.valid valid
      rw [← proper.named] at here
      rw [List.mapM_cons, ih among.2, here]
      rfl
  rw [updateSignature, texts]
  rfl

/-- The entries which are looked at when two components are compared: names and texts. -/
private def look (compName : String) (r : TypedResource) : String × List Char :=
  (r.name.getD "", entryText compName r)

private theorem look_nodup (proper : Proper hash store c compName) (validNames : ValidNames store) :
    ((firsts store.res c).map (look compName)).Nodup := by
  have names := PlainComponent.firsts_nodup proper.tabled
  have shown : ∀ r ∈ firsts store.res c, r.name = some (look compName r).1 := by
    intro r member
    obtain ⟨name, named, -⟩ := proper.first_name validNames member
    rw [named, look, named, Option.getD_some]
  rw [List.map_congr_left shown] at names
  exact List.Nodup.of_map (fun pair => some pair.1) (by rwa [List.map_map])

private theorem look_subset (proper : Proper hash store c compName)
    (proper' : Proper hash store c' compName) (validNames : ValidNames store)
    (same : ∀ name, (resourcesOf store.res c name).Perm (resourcesOf store.res c' name))
    (agree : ∀ name, ∀ r ∈ (resourcesOf store.res c name).head?,
      ∀ r' ∈ (resourcesOf store.res c' name).head?,
        TypedResource.toStatus r c.name {} true = TypedResource.toStatus r' c'.name {} true) :
    (firsts store.res c).map (look compName) ⊆ (firsts store.res c').map (look compName) := by
  intro pair member
  obtain ⟨r, inFirsts, rfl⟩ := List.mem_map.mp member
  obtain ⟨name, named, valid, found⟩ := proper.first_name validNames inFirsts
  have there : resourcesOf store.res c' name ≠ [] := fun nothing =>
    resourcesOf_ne_nil.mpr ⟨r, found⟩ (List.perm_nil.mp (nothing ▸ same name))
  obtain ⟨r', found'⟩ := resourcesOf_ne_nil.mp there
  have member' := (PlainComponent.mem_firsts proper'.tabled r').mpr ⟨name, found'⟩
  have named' := PlainComponent.active_name proper'.tabled found'
  have texts := agree name r (by rw [resourcesOf_head?, found]; rfl) r'
    (by rw [resourcesOf_head?, found']; rfl)
  rw [proper.named, proper'.named, TypedResource.toStatus_valid named proper.valid valid,
    TypedResource.toStatus_valid named' proper.valid valid, Option.some_inj] at texts
  refine List.mem_map.mpr ⟨r', member', ?_⟩
  rw [look, look, named, named', texts]

/-- Two components of one name with the same entries feed the same text. -/
theorem texts_eq (proper : Proper hash store c compName) (proper' : Proper hash store c' compName)
    (validNames : ValidNames store)
    (same : ∀ name, (resourcesOf store.res c name).Perm (resourcesOf store.res c' name))
    (agree : ∀ name, ∀ r ∈ (resourcesOf store.res c name).head?,
      ∀ r' ∈ (resourcesOf store.res c' name).head?,
        TypedResource.toStatus r c.name {} true = TypedResource.toStatus r' c'.name {} true)
    (noTies : ∀ name1 name2, resourcesOf store.res c name1 ≠ [] →
      resourcesOf store.res c name2 ≠ [] → strcasecmp name1 name2 = 0 → name1 = name2)
    {sorted sorted' : List TypedResource}
    (sorts : QSort.Sorts entryCmp (firsts store.res c) sorted)
    (sorts' : QSort.Sorts entryCmp (firsts store.res c') sorted') :
    sorted.map (entryText compName) = sorted'.map (entryText compName) := by
  -- both components are seen through the same entries
  have perm : ((firsts store.res c).map (look compName)).Perm
      ((firsts store.res c').map (look compName)) := by
    refine (List.perm_ext_iff_of_nodup (proper.look_nodup validNames)
      (proper'.look_nodup validNames)).mpr fun _ => ⟨fun member => ?_, fun member => ?_⟩
    · exact proper.look_subset proper' validNames same agree member
    · exact proper'.look_subset proper validNames (fun name => (same name).symm)
        (fun name r' inC' r inC => (agree name r inC r' inC').symm) member
  have looks := QSort.Sorts.map_eq (look compName) sorts sorts'
    (fun pair1 pair2 => strcasecmp pair1.1 pair2.1) (fun _ _ => rfl) perm
    fun r1 in1 r2 in2 le ge => by
      obtain ⟨name1, named1, -, found1⟩ := proper.first_name validNames in1
      obtain ⟨name2, named2, -, found2⟩ := proper.first_name validNames in2
      have swapped := strcasecmp_swap name1 name2
      -- names which compare equal are equal, so that the sort leaves no choice
      rw [entryCmp, named1, named2, Option.getD_some, Option.getD_some] at le ge
      obtain rfl := noTies name1 name2 (resourcesOf_ne_nil.mpr ⟨r1, found1⟩)
        (resourcesOf_ne_nil.mpr ⟨r2, found2⟩) (by omega)
      rw [found1, Option.some_inj] at found2
      rw [found2]
  have snds := congrArg (List.map Prod.snd) looks
  rwa [List.map_map, List.map_map] at snds

end Proper

/-! ## All components -/

section Set

variable {set set1 set2 : LCFGComponentSet}

theorem Loaded.proper (loaded : Loaded hash store set) {c : PlainComponent}
    (member : c ∈ comps store set) : ∃ compName, Proper hash store c compName := by
  obtain ⟨a, stored, rfl⟩ := List.mem_map.mp member
  have valid := loaded.named a stored
  have named := nameOf_eq valid
  rw [named] at valid
  exact ⟨nameOf store.comp a, loaded.tabled a stored, named, valid⟩

theorem Loaded.comps_nodup (loaded : Loaded hash store set) :
    ((comps store set).map fun c => c.name).Nodup := by
  rw [comps, List.map_map]
  refine List.pairwise_map.mpr (loaded.chained.pairwise.imp_of_mem fun {a b} inA inB differ same => ?_)
  have nameA := nameOf_eq (loaded.named a inA)
  have nameB := nameOf_eq (loaded.named b inB)
  simp only [Function.comp_apply, Component.value_name] at same
  rw [nameA, nameB] at same
  exact differ same

theorem entryCmp_preorder : QSort.Preorder entryCmp :=
  strcasecmp_preorder.comap fun r : TypedResource => r.name.getD ""

/-- Something is always fed. -/
theorem exists_feeds (validNames : ValidNames store) {cs : List PlainComponent}
    (proper : ∀ c ∈ cs, ∃ compName, Proper hash store c compName) :
    ∃ text, Feeds store cs text := by
  induction cs with
  | nil => exact ⟨[], .nil⟩
  | cons c rest ih =>
    obtain ⟨more, later⟩ := ih fun c' member => proper c' (List.mem_cons_of_mem _ member)
    obtain ⟨compName, here⟩ := proper c List.mem_cons_self
    obtain ⟨sorted, sorts⟩ := entryCmp_preorder.exists_sorts (firsts store.res c)
    have written := here.updateSignature_eq validNames sorts.perm.subset
    exact ⟨_, .cons sorts written later⟩

theorem Feeds.append {cs cs' : List PlainComponent} {text text' : List Char}
    (first : Feeds store cs text) (second : Feeds store cs' text') :
    Feeds store (cs ++ cs') (text ++ text') := by
  induction first with
  | nil => exact second
  | cons sorts written _ ih =>
    rw [List.cons_append, List.append_assoc]
    exact .cons sorts written ih

/-- A component without resources feeds nothing. -/
theorem Feeds.filter {cs : List PlainComponent} {text : List Char}
    (proper : ∀ c ∈ cs, ∃ compName, Proper hash store c compName) (feeds : Feeds store cs text) :
    Feeds store (cs.filter fun c => c.entries ≠ 0) text := by
  induction feeds with
  | nil => exact .nil
  | @cons c rest sorted text more sorts written later ih =>
    have others := ih fun c' member => proper c' (List.mem_cons_of_mem _ member)
    by_cases empty : c.entries = 0
    · obtain ⟨compName, here⟩ := proper c List.mem_cons_self
      have nothing : firsts store.res c = [] := by
        rw [← List.length_eq_zero_iff, PlainComponent.firsts_length here.tabled, empty]
      rw [nothing] at sorts
      rw [List.perm_nil.mp sorts.perm] at written
      obtain rfl : text = [] := (Option.some_inj.mp written).symm
      simpa [empty] using others
    · simpa [empty] using Feeds.cons sorts written others

/-- Components of the same names in the same order feed the same text, if each of them does. -/
theorem Feeds.unique {cs1 cs2 : List PlainComponent} {text1 text2 : List Char}
    (feeds1 : Feeds store cs1 text1) (feeds2 : Feeds store cs2 text2)
    (order : (cs1.map fun c => c.name) = cs2.map fun c => c.name)
    (alike : ∀ c1 ∈ cs1, ∀ c2 ∈ cs2, c1.name = c2.name → ∀ sorted1 sorted2 part1 part2,
      QSort.Sorts entryCmp (firsts store.res c1) sorted1 →
      QSort.Sorts entryCmp (firsts store.res c2) sorted2 →
      updateSignature c1 sorted1 = some part1 → updateSignature c2 sorted2 = some part2 →
      part1 = part2) : text1 = text2 := by
  induction feeds1 generalizing cs2 text2 with
  | nil =>
    cases feeds2 with
    | nil => rfl
    | cons => cases order
  | cons sorts written _ ih =>
    cases feeds2 with
    | nil => cases order
    | cons sorts' written' rest' =>
      rw [List.map_cons, List.map_cons, List.cons.injEq] at order
      have first := alike _ List.mem_cons_self _ List.mem_cons_self order.1 _ _ _ _ sorts sorts'
        written written'
      rw [first, ih rest' order.2 fun c1 in1 c2 in2 =>
        alike c1 (List.mem_cons_of_mem _ in1) c2 (List.mem_cons_of_mem _ in2)]

/-- The conditions are enough. -/
theorem canonical_of (loaded1 : Loaded hash store set1) (loaded2 : Loaded hash store set2)
    (validNames : ValidNames store) (same : SameContents store set1 set2)
    (order : bucketOrder store set1 = bucketOrder store set2) (noTies : NoTies store set1)
    (agree : FirstsAgree store set1 set2) : Canonical store set1 set2 := by
  intro text1 text2 feeds1 feeds2
  have proper1 := fun c (member : c ∈ comps store set1) => loaded1.proper member
  have proper2 := fun c (member : c ∈ comps store set2) => loaded2.proper member
  refine (feeds1.filter proper1).unique (feeds2.filter proper2) order ?_
  intro c1 in1 c2 in2 sameName sorted1 sorted2 part1 part2 sorts1 sorts2 written1 written2
  have mem1 := List.mem_of_mem_filter in1
  have mem2 := List.mem_of_mem_filter in2
  obtain ⟨compName, here1⟩ := proper1 c1 mem1
  obtain ⟨compName', here2⟩ := proper2 c2 mem2
  obtain rfl : compName = compName' := by
    rw [here1.named, here2.named, Option.some_inj] at sameName
    exact sameName
  rw [here1.updateSignature_eq validNames sorts1.perm.subset, Option.some_inj] at written1
  rw [here2.updateSignature_eq validNames sorts2.perm.subset, Option.some_inj] at written2
  rw [← written1, ← written2, here1.texts_eq here2 validNames
    (same.resources c1 mem1 c2 mem2 sameName) (agree c1 mem1 c2 mem2 sameName)
    (noTies c1 mem1) sorts1 sorts2]

/-! ### The conditions are necessary -/

/-- Two names which differ only in case may be written in either order. -/
theorem noTies_of_canonical (loaded1 : Loaded hash store set1) (loaded2 : Loaded hash store set2)
    (validNames : ValidNames store) (canonical : Canonical store set1 set2) :
    NoTies store set1 := by
  intro c member name1 name2 some1 some2 tied
  by_contra different
  obtain ⟨r1, found1⟩ := resourcesOf_ne_nil.mp some1
  obtain ⟨r2, found2⟩ := resourcesOf_ne_nil.mp some2
  obtain ⟨compName, here⟩ := loaded1.proper member
  have in1 := (PlainComponent.mem_firsts here.tabled r1).mpr ⟨name1, found1⟩
  have in2 := (PlainComponent.mem_firsts here.tabled r2).mpr ⟨name2, found2⟩
  have named1 := PlainComponent.active_name here.tabled found1
  have named2 := PlainComponent.active_name here.tabled found2
  have unequal : r2 ≠ r1 := by
    rintro rfl
    rw [named1, Option.some_inj] at named2
    exact different named2
  have perm : (firsts store.res c).Perm
      (r1 :: r2 :: ((firsts store.res c).erase r1).erase r2) :=
    (List.perm_cons_erase in1).trans
      ((List.perm_cons_erase ((List.mem_erase_of_ne unequal).mpr in2)).cons r1)
  obtain ⟨before, after, sorts, sorts', -⟩ := entryCmp_preorder.exists_swapped perm
    (by rw [entryCmp, named1, named2, Option.getD_some, Option.getD_some, tied])
  -- the rest of the text is the same
  obtain ⟨left, right, split⟩ := List.append_of_mem member
  have proper1 := fun c' (member' : c' ∈ comps store set1) => loaded1.proper member'
  rw [split] at proper1
  obtain ⟨leftText, leftFeeds⟩ := exists_feeds validNames fun c' member' =>
    proper1 c' (List.mem_append_left _ member')
  obtain ⟨rightText, rightFeeds⟩ := exists_feeds validNames fun c' member' =>
    proper1 c' (List.mem_append_right _ (List.mem_cons_of_mem _ member'))
  obtain ⟨text2, feeds2⟩ := exists_feeds validNames fun c' (member' : c' ∈ comps store set2) =>
    loaded2.proper member'
  have feeds := leftFeeds.append (.cons sorts
    (here.updateSignature_eq validNames sorts.perm.subset) rightFeeds)
  have feeds' := leftFeeds.append (.cons sorts'
    (here.updateSignature_eq validNames sorts'.perm.subset) rightFeeds)
  rw [← split] at feeds feeds'
  have same := (canonical _ _ feeds feeds2).trans (canonical _ _ feeds' feeds2).symm
  simp only [List.map_append, List.map_cons, List.flatten_append, List.flatten_cons,
    List.append_assoc, List.append_cancel_left_eq] at same
  obtain ⟨_, named1', valid1, -⟩ := here.first_name validNames in1
  obtain ⟨_, named2', valid2, -⟩ := here.first_name validNames in2
  obtain rfl := Option.some_inj.mp (named1.symm.trans named1')
  obtain rfl := Option.some_inj.mp (named2.symm.trans named2')
  exact different
    (TypedResource.entryText_names named1 named2 here.valid valid1 here.valid valid2 same).2

/-- The texts of the entries of one component, in one of the orders which are possible. -/
private def Block (store : Store) (c : PlainComponent) (block : List (List Char)) : Prop :=
  ∃ compName sorted, c.name = some compName ∧
    QSort.Sorts entryCmp (firsts store.res c) sorted ∧ block = sorted.map (entryText compName)

private theorem Feeds.blocks (validNames : ValidNames store) {cs : List PlainComponent}
    {text : List Char} (proper : ∀ c ∈ cs, ∃ compName, Proper hash store c compName)
    (feeds : Feeds store cs text) :
    ∃ blocks, List.Forall₂ (Block store) cs blocks ∧ text = blocks.flatten.flatten := by
  induction feeds with
  | nil => exact ⟨[], .nil, rfl⟩
  | @cons c rest sorted text more sorts written later ih =>
    obtain ⟨blocks, all, isText⟩ := ih fun c' member => proper c' (List.mem_cons_of_mem _ member)
    obtain ⟨compName, here⟩ := proper c List.mem_cons_self
    rw [here.updateSignature_eq validNames sorts.perm.subset, Option.some_inj] at written
    refine ⟨_ :: blocks, .cons ⟨compName, sorted, here.named, sorts, rfl⟩ all, ?_⟩
    rw [List.flatten_cons, List.flatten_append, written, isText]

/-- Where the entries are the same, so are the components and their entries. -/
private theorem blocks_eq (validNames : ValidNames store) {cs1 cs2 : List PlainComponent}
    {blocks1 blocks2 : List (List (List Char))}
    (proper1 : ∀ c ∈ cs1, ∃ compName, Proper hash store c compName)
    (proper2 : ∀ c ∈ cs2, ∃ compName, Proper hash store c compName)
    (some1 : ∀ c ∈ cs1, firsts store.res c ≠ []) (some2 : ∀ c ∈ cs2, firsts store.res c ≠ [])
    (lengths : ∀ c1 ∈ cs1, ∀ c2 ∈ cs2, c1.name = c2.name →
      (firsts store.res c1).length = (firsts store.res c2).length)
    (all1 : List.Forall₂ (Block store) cs1 blocks1) (all2 : List.Forall₂ (Block store) cs2 blocks2)
    (same : blocks1.flatten = blocks2.flatten) :
    List.Forall₂ (fun c1 c2 => c1.name = c2.name ∧ ∃ block, Block store c1 block ∧
      Block store c2 block) cs1 cs2 := by
  have not_nil {c : PlainComponent} {block : List (List Char)} (some_ : firsts store.res c ≠ [])
      (here : Block store c block) : block ≠ [] := by
    obtain ⟨compName, sorted, -, sorts, rfl⟩ := here
    rw [ne_eq, List.map_eq_nil_iff]
    rintro rfl
    exact some_ (List.nil_perm.mp sorts.perm)
  induction all1 generalizing cs2 blocks2 with
  | nil =>
    cases all2 with
    | nil => exact .nil
    | cons here _ =>
      rw [List.flatten_nil, List.flatten_cons, eq_comm, List.append_eq_nil_iff] at same
      exact absurd same.1 (not_nil (some2 _ List.mem_cons_self) here)
  | @cons c1 block1 cs1 blocks1 here1 rest1 ih =>
    cases all2 with
    | nil =>
      rw [List.flatten_nil, List.flatten_cons, List.append_eq_nil_iff] at same
      exact absurd same.1 (not_nil (some1 _ List.mem_cons_self) here1)
    | @cons c2 block2 cs2 blocks2 here2 rest2 =>
      rw [List.flatten_cons, List.flatten_cons] at same
      obtain ⟨compName1, sorted1, named1, sorts1, isBlock1⟩ := here1
      obtain ⟨compName2, sorted2, named2, sorts2, isBlock2⟩ := here2
      -- the first entries show the names of the components
      have sameName : c1.name = c2.name := by
        obtain ⟨r1, more1, rfl⟩ := List.exists_cons_of_ne_nil fun none1 : sorted1 = [] =>
          some1 c1 List.mem_cons_self (List.nil_perm.mp (none1 ▸ sorts1.perm))
        obtain ⟨r2, more2, rfl⟩ := List.exists_cons_of_ne_nil fun none2 : sorted2 = [] =>
          some2 c2 List.mem_cons_self (List.nil_perm.mp (none2 ▸ sorts2.perm))
        rw [isBlock1, isBlock2, List.map_cons, List.map_cons, List.cons_append, List.cons_append,
          List.cons.injEq] at same
        obtain ⟨_, here1⟩ := proper1 c1 List.mem_cons_self
        obtain ⟨_, here2⟩ := proper2 c2 List.mem_cons_self
        obtain rfl := Option.some_inj.mp (named1.symm.trans here1.named)
        obtain rfl := Option.some_inj.mp (named2.symm.trans here2.named)
        obtain ⟨name1, rNamed1, valid1, -⟩ :=
          here1.first_name validNames (sorts1.perm.subset List.mem_cons_self)
        obtain ⟨name2, rNamed2, valid2, -⟩ :=
          here2.first_name validNames (sorts2.perm.subset List.mem_cons_self)
        have texts : entryText compName1 r1 ++ [] = entryText compName2 r2 ++ [] := by rw [same.1]
        rw [named1, named2, (TypedResource.entryText_names rNamed1 rNamed2 here1.valid valid1
          here2.valid valid2 texts).1]
      have sameLength : block1.length = block2.length := by
        rw [isBlock1, isBlock2, List.length_map, List.length_map, sorts1.perm.length_eq,
          sorts2.perm.length_eq]
        exact lengths _ List.mem_cons_self _ List.mem_cons_self sameName
      obtain ⟨sameBlock, others⟩ := List.append_inj same sameLength
      refine .cons ⟨sameName, block1, ⟨compName1, sorted1, named1, sorts1, isBlock1⟩,
        compName2, sorted2, named2, sorts2, sameBlock ▸ isBlock2⟩ ?_
      exact ih (fun c member => proper1 c (List.mem_cons_of_mem _ member))
        (fun c member => proper2 c (List.mem_cons_of_mem _ member))
        (fun c member => some1 c (List.mem_cons_of_mem _ member))
        (fun c member => some2 c (List.mem_cons_of_mem _ member))
        (fun c1 in1 c2 in2 => lengths c1 (List.mem_cons_of_mem _ in1) c2 (List.mem_cons_of_mem _ in2))
        rest2 others

/-- The same resources have the same names. -/
private theorem firsts_length_eq {c1 c2 : PlainComponent} {compName1 compName2 : String}
    (here1 : Proper hash store c1 compName1) (here2 : Proper hash store c2 compName2)
    (same : ∀ name, (resourcesOf store.res c1 name).Perm (resourcesOf store.res c2 name)) :
    (firsts store.res c1).length = (firsts store.res c2).length := by
  have names {c : PlainComponent} {compName : String} (here : Proper hash store c compName)
      (name : Option String) : name ∈ (firsts store.res c).map (fun r => r.name) ↔
        ∃ text, name = some text ∧ resourcesOf store.res c text ≠ [] := by
    simp only [List.mem_map, PlainComponent.mem_firsts here.tabled, resourcesOf_ne_nil]
    constructor
    · rintro ⟨r, ⟨text, found⟩, rfl⟩
      exact ⟨text, PlainComponent.active_name here.tabled found, r, found⟩
    · rintro ⟨text, rfl, r, found⟩
      exact ⟨r, ⟨text, found⟩, PlainComponent.active_name here.tabled found⟩
  have perm := (List.perm_ext_iff_of_nodup (PlainComponent.firsts_nodup here1.tabled)
    (PlainComponent.firsts_nodup here2.tabled)).mpr fun name => by
      rw [names here1, names here2]
      refine exists_congr fun text => and_congr_right fun _ => not_congr ?_
      exact ⟨fun nothing => List.nil_perm.mp (nothing ▸ same text),
        fun nothing => List.perm_nil.mp (nothing ▸ same text)⟩
  rw [← List.length_map (fun r : TypedResource => r.name), perm.length_eq, List.length_map]

private theorem blocks_paragraphs (validNames : ValidNames store) {cs : List PlainComponent}
    {blocks : List (List (List Char))} (proper : ∀ c ∈ cs, ∃ compName, Proper hash store c compName)
    (unbroken : ∀ c ∈ cs, ∀ r ∈ firsts store.res c, TypedResource.Unbroken r)
    (all : List.Forall₂ (Block store) cs blocks) :
    ∀ text ∈ blocks.flatten, Fields.Paragraph Char.isAlpha (· == '\n') text := by
  induction all with
  | nil => simp
  | @cons c block cs blocks here _ ih =>
    intro text member
    rw [List.flatten_cons, List.mem_append] at member
    rcases member with member | later
    · obtain ⟨compName, sorted, named, sorts, rfl⟩ := here
      obtain ⟨r, inSorted, rfl⟩ := List.mem_map.mp member
      obtain ⟨_, good⟩ := proper c List.mem_cons_self
      obtain rfl := Option.some_inj.mp (named.symm.trans good.named)
      have inFirsts := sorts.perm.subset inSorted
      obtain ⟨name, rNamed, valid, -⟩ := good.first_name validNames inFirsts
      rw [entryText, rNamed, Option.getD_some]
      exact (unbroken c List.mem_cons_self r inFirsts).paragraph good.valid valid true
    · exact ih (fun c' member => proper c' (List.mem_cons_of_mem _ member))
        (fun c' member => unbroken c' (List.mem_cons_of_mem _ member)) text later

private theorem forall₂_left {α β : Type} {R : α → β → Prop} {l : List α} {l' : List β}
    (all : List.Forall₂ R l l') : ∀ a ∈ l, ∃ b ∈ l', R a b := by
  induction all with
  | nil => simp
  | cons here _ ih =>
    rintro a (_ | ⟨_, member⟩)
    · exact ⟨_, List.mem_cons_self, here⟩
    · obtain ⟨b, later, there⟩ := ih a member
      exact ⟨b, List.mem_cons_of_mem _ later, there⟩

private theorem firsts_ne_nil {c : PlainComponent} {compName : String}
    (here : Proper hash store c compName) : firsts store.res c ≠ [] ↔ c.entries ≠ 0 := by
  rw [ne_eq, ← List.length_eq_zero_iff, PlainComponent.firsts_length here.tabled]

/-- Entries of the same text have the same first resources. -/
private theorem toStatus_eq_of_blocks (validNames : ValidNames store) {c1 c2 : PlainComponent}
    {compName1 compName2 : String} (here1 : Proper hash store c1 compName1)
    (here2 : Proper hash store c2 compName2) {block : List (List Char)}
    (block1 : Block store c1 block) (block2 : Block store c2 block) {name : String}
    {r1 r2 : TypedResource} (found1 : active store.res (some c1) name = some r1)
    (found2 : active store.res (some c2) name = some r2) :
    TypedResource.toStatus r1 c1.name {} true = TypedResource.toStatus r2 c2.name {} true := by
  obtain ⟨shown1, sorted1, named1, sorts1, rfl⟩ := block1
  obtain rfl := Option.some_inj.mp (named1.symm.trans here1.named)
  obtain ⟨shown2, sorted2, named2, sorts2, same⟩ := block2
  obtain rfl := Option.some_inj.mp (named2.symm.trans here2.named)
  have in1 := (PlainComponent.mem_firsts here1.tabled r1).mpr ⟨name, found1⟩
  have rNamed1 := PlainComponent.active_name here1.tabled found1
  -- the text of the one is found among those of the other component
  have member : entryText shown1 r1 ∈ sorted1.map (entryText shown1) :=
    List.mem_map_of_mem (sorts1.perm.mem_iff.mpr in1)
  rw [same] at member
  obtain ⟨r, inSorted, text⟩ := List.mem_map.mp member
  obtain ⟨name', rNamed, valid, found⟩ :=
    here2.first_name validNames (sorts2.perm.subset inSorted)
  obtain ⟨_, rNamed1', valid1, -⟩ := here1.first_name validNames in1
  obtain rfl := Option.some_inj.mp (rNamed1.symm.trans rNamed1')
  obtain ⟨rfl, rfl⟩ := TypedResource.entryText_names rNamed rNamed1 here2.valid valid here1.valid
    valid1 (congrArg (· ++ []) text)
  rw [found2, Option.some_inj] at found
  subst found
  rw [named1, named2, TypedResource.toStatus_valid rNamed1 here1.valid valid,
    TypedResource.toStatus_valid rNamed here1.valid valid, text]

/-- Without line breaks of their own the texts can be told apart, so that the order of the
components and the first resources can be read from the whole. -/
theorem order_of_canonical (loaded1 : Loaded hash store set1) (loaded2 : Loaded hash store set2)
    (validNames : ValidNames store) (same : SameContents store set1 set2)
    (unbroken1 : AllUnbroken store set1) (unbroken2 : AllUnbroken store set2)
    (canonical : Canonical store set1 set2) :
    bucketOrder store set1 = bucketOrder store set2 ∧ FirstsAgree store set1 set2 := by
  have proper1 := fun c (member : c ∈ comps store set1) => loaded1.proper member
  have proper2 := fun c (member : c ∈ comps store set2) => loaded2.proper member
  obtain ⟨text1, feeds1⟩ := exists_feeds validNames proper1
  obtain ⟨text2, feeds2⟩ := exists_feeds validNames proper2
  have sameText := canonical text1 text2 feeds1 feeds2
  have filtered1 := fun c (member : c ∈ (comps store set1).filter fun c => c.entries ≠ 0) =>
    proper1 c (List.mem_of_mem_filter member)
  have filtered2 := fun c (member : c ∈ (comps store set2).filter fun c => c.entries ≠ 0) =>
    proper2 c (List.mem_of_mem_filter member)
  obtain ⟨blocks1, all1, isText1⟩ := (feeds1.filter proper1).blocks validNames filtered1
  obtain ⟨blocks2, all2, isText2⟩ := (feeds2.filter proper2).blocks validNames filtered2
  -- the paragraphs of each text are the entries of the components with resources
  have paragraphs1 := blocks_paragraphs validNames filtered1
    (fun c member => unbroken1 c (List.mem_of_mem_filter member)) all1
  have paragraphs2 := blocks_paragraphs validNames filtered2
    (fun c member => unbroken2 c (List.mem_of_mem_filter member)) all2
  have sameBlocks := Fields.Paragraph.flatten_inj paragraphs1 paragraphs2
    (by rw [← isText1, ← isText2, sameText])
  -- a component with resources has first ones
  have some_ {set : LCFGComponentSet}
      (proper : ∀ c ∈ comps store set, ∃ compName, Proper hash store c compName) :
      ∀ c ∈ (comps store set).filter fun c => c.entries ≠ 0, firsts store.res c ≠ [] := by
    intro c member
    obtain ⟨compName, here⟩ := proper c (List.mem_of_mem_filter member)
    exact (firsts_ne_nil here).mpr (by simpa using (List.mem_filter.mp member).2)
  have matched := blocks_eq validNames filtered1 filtered2 (some_ proper1) (some_ proper2)
    (fun c1 in1 c2 in2 sameName => by
      obtain ⟨_, here1⟩ := filtered1 c1 in1
      obtain ⟨_, here2⟩ := filtered2 c2 in2
      exact firsts_length_eq here1 here2 (same.resources c1 (List.mem_of_mem_filter in1) c2
        (List.mem_of_mem_filter in2) sameName)) all1 all2 sameBlocks
  constructor
  · rw [bucketOrder, bucketOrder, ← List.forall₂_eq_eq_eq, List.forall₂_map_left_iff,
      List.forall₂_map_right_iff]
    exact matched.imp fun _ _ both => both.1
  · intro c1 in1 c2 in2 sameName name r1 first1 r2 first2
    rw [resourcesOf_head?, Option.mem_def] at first1 first2
    obtain ⟨compName1, here1⟩ := proper1 c1 in1
    obtain ⟨compName2, here2⟩ := proper2 c2 in2
    -- the component is one of those with resources
    have some1 : c1.entries ≠ 0 := (firsts_ne_nil here1).mp
      (List.ne_nil_of_mem ((PlainComponent.mem_firsts here1.tabled r1).mpr ⟨name, first1⟩))
    obtain ⟨c, inFiltered, named, block, block1, block2⟩ :=
      forall₂_left matched c1 (List.mem_filter.mpr ⟨in1, by simpa using some1⟩)
    obtain rfl := List.inj_on_of_nodup_map loaded2.comps_nodup (List.mem_of_mem_filter inFiltered)
      in2 (named.symm.trans sameName)
    exact toStatus_eq_of_blocks validNames here1 here2 block1 block2 first1 first2

end Set

/-! ### Two components in one bucket -/

section Sample

/-- The first two names have the same hash value, modulo the number of buckets. -/
def sampleName (a : Addr) : String := if a = 0 then "a" else if a = 1 then "bz" else "c"

/-- Components with one resource each. -/
def sampleStore : Store where
  heap := ⟨fun _ => ⟨⟨[⟨0, 0⟩], some 0, 1⟩, {}, {}⟩, fun _ => 1, 1⟩
  comp a := { Component.new with
    name := some (sampleName a), resources := Component.new.resources.set 57 (some 0), entries := 1 }
  res _ := { TypedResource.new with name := some "x", value := some "1" }

def sampleSet (inserted : List Addr) : LCFGComponentSet :=
  (insertAll djbhash sampleStore.comp new inserted).1

theorem sampleName_valid (a : Addr) : Resource.validName (some (sampleName a)) = true := by
  rw [sampleName]
  repeat' split
  all_goals decide

theorem sampleStore_tabled (a : Addr) : PlainComponent.Tabled djbhash (base sampleStore.res)
    (Component.value ⟨sampleStore.heap, sampleStore.comp a⟩) := by
  have empty : PlainComponent.Tabled djbhash (base sampleStore.res)
      (PlainComponent.emptied (Component.value ⟨sampleStore.heap, sampleStore.comp a⟩)
        Component.defaultSize) := PlainComponent.Tabled.emptied_tabled _ (by decide)
  have holds : PlainComponent.ListFor (base sampleStore.res) "x" ⟨[0], {}, {}⟩ :=
    ⟨by decide, by decide, by simp [base, sampleStore]⟩
  have found : PlainComponent.bucketOf djbhash (base sampleStore.res)
      (PlainComponent.emptied (Component.value ⟨sampleStore.heap, sampleStore.comp 0⟩)
        Component.defaultSize) "x" = some 57 := by decide
  exact (empty.put_spec holds found).1

theorem sampleStore_validNames : ValidNames sampleStore := by
  intro a name named
  obtain rfl := Option.some_inj.mp named
  decide

theorem sampleSet_loaded (inserted : List Addr) (fits : inserted.length ≤ defaultSize) :
    Loaded djbhash sampleStore (sampleSet inserted) := by
  refine insertAll_loaded inserted (fun a _ => sampleName_valid a)
    (fun a _ => sampleStore_tabled a) ?_
  have fewer := (List.dedup_sublist (inserted.map (nameOf sampleStore.comp))).length_le
  rw [List.length_map] at fewer
  exact fewer.trans fits

theorem sampleSet_unbroken (inserted : List Addr) :
    AllUnbroken sampleStore (sampleSet inserted) := by
  intro c _ r member
  obtain ⟨list, -, here⟩ := List.mem_filterMap.mp member
  obtain ⟨a, -, rfl⟩ := Option.map_eq_some_iff.mp here
  have same : sampleStore.res a = sampleStore.res 0 := rfl
  rw [same]
  exact ⟨by decide, by decide, by decide⟩

/-- Sets with the same components have the same contents. -/
theorem sameContents_of_perm {set1 set2 : LCFGComponentSet} (loaded1 : Loaded hash store set1)
    (perm : (comps store set1).Perm (comps store set2)) : SameContents store set1 set2 where
  names name := by simp only [perm.mem_iff]
  resources c1 in1 c2 in2 sameName name := by
    rw [List.inj_on_of_nodup_map loaded1.comps_nodup in1 (perm.mem_iff.mpr in2) sameName]

theorem sample_stored : LinearProbe.stored (sampleSet [0, 1]).components = [0, 1] ∧
    LinearProbe.stored (sampleSet [1, 0]).components = [1, 0] ∧
    LinearProbe.stored (sampleSet [0, 2]).components = [0, 2] ∧
    LinearProbe.stored (sampleSet [2, 0]).components = [0, 2] := by
  decide

theorem sample_comps {inserted stored : List Addr}
    (here : LinearProbe.stored (sampleSet inserted).components = stored) :
    comps sampleStore (sampleSet inserted) =
      stored.map fun a => Component.value ⟨sampleStore.heap, sampleStore.comp a⟩ := by
  rw [comps, here]

theorem sample_order {inserted stored : List Addr}
    (here : LinearProbe.stored (sampleSet inserted).components = stored) :
    bucketOrder sampleStore (sampleSet inserted) = stored.map fun a => some (sampleName a) := by
  rw [bucketOrder, sample_comps here, List.filter_map, List.map_map]
  have all : stored.filter ((fun c : PlainComponent => decide (c.entries ≠ 0)) ∘ fun a =>
      Component.value ⟨sampleStore.heap, sampleStore.comp a⟩) = stored :=
    List.filter_eq_self.mpr fun a _ => by simp [sampleStore]
  rw [all]
  rfl

theorem sample_res {c : PlainComponent} {name : String} {r : TypedResource}
    (member : r ∈ resourcesOf sampleStore.res c name) : r = sampleStore.res 0 := by
  rw [resourcesOf] at member
  cases here : PlainComponent.lists (base sampleStore.res) c name with
  | none =>
    rw [here] at member
    cases member
  | some list =>
    rw [here] at member
    obtain ⟨a, -, rfl⟩ := List.mem_map.mp member
    rfl

theorem sample_resourcesOf {inserted : List Addr} {c : PlainComponent} {name : String}
    (loaded : Loaded djbhash sampleStore (sampleSet inserted))
    (member : c ∈ comps sampleStore (sampleSet inserted))
    (some_ : resourcesOf sampleStore.res c name ≠ []) : name = "x" := by
  obtain ⟨_, here⟩ := loaded.proper member
  obtain ⟨r, found⟩ := resourcesOf_ne_nil.mp some_
  have named := PlainComponent.active_name here.tabled found
  rw [← resourcesOf_head?] at found
  rw [sample_res (List.mem_of_mem_head? found)] at named
  exact (Option.some_inj.mp named).symm

end Sample

end CompSet

end Lcfg
