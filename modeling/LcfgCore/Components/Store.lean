import LcfgCore.Components.Set
import LcfgCore.Components.View

/-!
# What component sets hold

A component set holds the addresses of components, these the addresses of lists, and
these the addresses of resources. All of them are in one store.

## Main results

`insertAll_loaded`: a set into which well-formed components are inserted is well formed.
-/
namespace Lcfg

/-- What component sets refer to: the lists on the heap, the components and the resources. -/
structure Store where
  heap : ListHeap
  comp : Addr → LCFGComponent
  res : Addr → TypedResource

namespace CompSet

variable {hash : String → Nat} {store : Store} {set : LCFGComponentSet}

/-- A set of which the components are well formed and have valid names. -/
structure Loaded (hash : String → Nat) (store : Store) (set : LCFGComponentSet) : Prop
    extends Sound hash store.comp set where
  tabled : ∀ a ∈ LinearProbe.stored set.components,
    PlainComponent.Tabled hash (base store.res) (Component.value ⟨store.heap, store.comp a⟩)
  named : ∀ a ∈ LinearProbe.stored set.components,
    Resource.validName (store.comp a).name = true

theorem nameOf_eq {comp : Addr → LCFGComponent} {a : Addr}
    (valid : Resource.validName (comp a).name = true) : (comp a).name = some (nameOf comp a) := by
  rw [nameOf]
  cases name : (comp a).name with
  | none => simp [name, Resource.validName] at valid
  | some name => rfl

/-- Inserting valid components, of no more names than there are buckets, gives such a set. -/
theorem insertAll_loaded (inserted : List Addr)
    (named : ∀ a ∈ inserted, Resource.validName (store.comp a).name = true)
    (tabled : ∀ a ∈ inserted,
      PlainComponent.Tabled hash (base store.res) (Component.value ⟨store.heap, store.comp a⟩))
    (fits : (names store.comp inserted).length ≤ defaultSize) :
    Loaded hash store (insertAll hash store.comp new inserted).1 := by
  have valid : ∀ a ∈ inserted, Component.isValid (store.comp a) = true := by
    intro a member
    have ok := named a member
    cases name : (store.comp a).name with
    | none => simp [name, Resource.validName] at ok
    | some text =>
      simp only [Component.isValid, name, Lcfg.isEmpty, Bool.not_eq_true']
      rw [name] at ok
      exact decide_eq_false fun none_ => by cases none_; cases ok
  have sound : Sound hash store.comp (insertAll hash store.comp new inserted).1 :=
    insertAll_sound inserted valid
  have holds : entry store.comp (insertAll hash store.comp new inserted).1 =
      lastInserted store.comp inserted := (insertAll_spec inserted valid fits).2
  have among : ∀ a ∈ LinearProbe.stored (insertAll hash store.comp new inserted).1.components,
      a ∈ inserted := by
    intro a member
    have found := (sound.chained.entry_eq_some_iff (nameOf store.comp a) a).mpr ⟨member, rfl⟩
    have last : lastInserted store.comp inserted (nameOf store.comp a) = some a := holds ▸ found
    exact List.mem_reverse.mp (List.mem_of_find?_eq_some last)
  exact ⟨sound, fun a member => tabled a (among a member), fun a member => named a (among a member)⟩

end CompSet

end Lcfg
