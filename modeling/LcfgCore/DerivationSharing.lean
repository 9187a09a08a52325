import LcfgCore.DerivationStore
import Mathlib.Data.List.Perm.Basic

/-!
# Merges of shared derivations

What the merges into a list of derivations do when its entries may be shared.
`rest` stands for the references to derivations which are not in the list.

## Main results

`mergeShared_spec`, `mergeFileLineShared_spec`, `mergeListShared_spec` and
`mergeStringListShared_spec`: a merge has the effect which it has on the values,
it leaves the derivations of others alone, and keeps the reference counts right.
-/
namespace Lcfg
namespace DerivList

open RefCount (Counts Agree)
open Outcome (Yields)
open StoredDerivation (Built full)

/-- The counts are right for the entries of the list and those held by others, and all
of these are as the library builds them. -/
structure Owned (rest : Multiset Addr) (heap : DerivHeap) (nodes : List Addr) : Prop where
  counts : Counts heap (nodes + rest)
  built : ∀ a ∈ (nodes + rest : Multiset Addr), Built (heap.cell a)

/-- A list after a merge, with the derivations of others as they were. -/
structure Merged (rest : Multiset Addr) (heap : DerivHeap) (result : LCFGDerivationList × LCFGChange)
    (r : DerivHeap × List Addr × LCFGChange) : Prop where
  owned : Owned rest r.1 r.2.1
  agree : Agree rest heap r.1
  result : (visible r.1 r.2.1, r.2.2) = result

variable {rest : Multiset Addr} {heap heap' : DerivHeap} {nodes : List Addr} {i : Nat}

theorem visible_length (heap : DerivHeap) (nodes : List Addr) :
    (visible heap nodes).length = nodes.length := List.length_map _

theorem visible_congr (agree : Agree nodes heap heap') :
    visible heap' nodes = visible heap nodes :=
  List.map_congr_left fun a member => by rw [agree a (Multiset.mem_coe.mpr member)]

theorem visible_getD (inside : i < nodes.length) (default : LCFGDerivation) :
    (visible heap nodes).getD i default = (heap.cell (nodes.getD i 0)).toLCFGDerivation := by
  simp [visible, List.getD_eq_getElem?_getD, inside]

/-- The list without one of its entries. -/
theorem coe_eq_cons (inside : i < nodes.length) :
    (nodes : Multiset Addr) = nodes.getD i 0 ::ₘ (nodes.eraseIdx i : Multiset Addr) := by
  rw [Multiset.cons_coe, Multiset.coe_eq_coe, List.getD_eq_getElem?_getD,
    List.getElem?_eq_getElem inside, Option.getD_some]
  exact (List.getElem_cons_eraseIdx_perm inside).symm

theorem coe_set (inside : i < nodes.length) (a : Addr) :
    (nodes.set i a : Multiset Addr) = a ::ₘ (nodes.eraseIdx i : Multiset Addr) := by
  have place : i < (nodes.set i a).length := by simpa using inside
  rw [coe_eq_cons place, List.eraseIdx_set_eq]
  simp [List.getD_eq_getElem?_getD, inside]

/-- Only the entry at one position is another one. -/
theorem visible_set (agree : Agree (nodes.eraseIdx i) heap heap') (a : Addr) :
    visible heap' (nodes.set i a) =
      (visible heap nodes).set i (heap'.cell a).toLCFGDerivation := by
  apply List.ext_getElem
  · simp [visible]
  · intro j inside _
    have place : j < nodes.length := by simpa [visible] using inside
    by_cases same : i = j
    · subst same
      simp [visible]
    · have other : nodes[j] ∈ nodes.eraseIdx i :=
        List.mem_eraseIdx_iff_getElem.mpr ⟨j, place, fun equal => same equal.symm, rfl⟩
      simp [visible, same, agree _ (Multiset.mem_coe.mpr other)]

/-- The search is the one in the list which is shown. -/
private theorem findIdx_visible (heap : DerivHeap) (nodes : List Addr) (file : String) :
    (visible heap nodes).findIdx? (fun drv => Derivation.isValid drv && Derivation.matchFile drv file) =
      findNode heap nodes file := rfl

theorem findNode_some {file : String} (found : findNode heap nodes file = some i) :
    i < nodes.length ∧
      Derivation.isValid (heap.cell (nodes.getD i 0)).toLCFGDerivation = true := by
  obtain ⟨inside, valid, -⟩ := List.findIdx?_eq_some_iff_getElem.mp found
  have place : i < nodes.length := by simpa [visible] using inside
  rw [Bool.and_eq_true] at valid
  refine ⟨place, ?_⟩
  rw [← visible_getD place {}, List.getD_eq_getElem?_getD, List.getElem?_eq_getElem inside]
  exact valid.1

/-! ### Writing to an entry -/

/-- The entry in question, all others, and the references of others. -/
private theorem Owned.parts (owned : Owned rest heap nodes) (inside : i < nodes.length) :
    Counts heap (nodes.getD i 0 ::ₘ (nodes.eraseIdx i + rest : Multiset Addr)) ∧
      Built (heap.cell (nodes.getD i 0)) ∧
      ∀ a ∈ (nodes.eraseIdx i + rest : Multiset Addr), Built (heap.cell a) := by
  have counts := owned.counts
  have built := owned.built
  rw [coe_eq_cons inside, Multiset.cons_add] at counts built
  exact ⟨counts, built _ (Multiset.mem_cons_self _ _),
    fun a member => built a (Multiset.mem_cons_of_mem member)⟩

/-- What is left to show for a new or changed entry at a position. -/
private theorem Owned.replace (owned : Owned rest heap nodes) (inside : i < nodes.length)
    {a : Addr} (counts : Counts heap' (a ::ₘ (nodes.eraseIdx i + rest : Multiset Addr)))
    (agree : Agree (nodes.eraseIdx i + rest : Multiset Addr) heap heap')
    (built : Built (heap'.cell a)) (change : LCFGChange) :
    Merged rest heap ((visible heap nodes).set i (heap'.cell a).toLCFGDerivation, change)
      (heap', nodes.set i a, change) := by
  have others := (owned.parts inside).2.2
  have total : (nodes.set i a + rest : Multiset Addr) =
      a ::ₘ (nodes.eraseIdx i + rest : Multiset Addr) := by
    rw [coe_set inside, Multiset.cons_add]
  refine ⟨⟨by rwa [total], fun b member => ?_⟩, fun b member => ?_, ?_⟩
  · rw [total] at member
    rcases Multiset.mem_cons.mp member with rfl | other
    · exact built
    · rw [agree b other]
      exact others b other
  · exact agree b (Multiset.mem_add.mpr (.inr member))
  · rw [visible_set fun b member => agree b (Multiset.mem_add.mpr (.inl member))]

/-- Whether the entry is written to or replaced by its clone, the list shows the same. -/
theorem modifyEntry_spec (owned : Owned rest heap nodes) (inside : i < nodes.length)
    (valid : Derivation.isValid (heap.cell (nodes.getD i 0)).toLCFGDerivation = true)
    (merge : StoredDerivation → Except OutOfBounds (StoredDerivation × LCFGChange))
    (result : LCFGDerivation → LCFGDerivation × LCFGChange)
    (merges : ∀ drv, Built drv → Yields full (merge drv) fun r => Built r.1 ∧
      (r.1.toLCFGDerivation, r.2) = result drv.toLCFGDerivation)
    (unchanged : ∀ drv, (result drv).2 = .error ∨ (result drv).2 = .none → (result drv).1 = drv) :
    Yields full (modifyEntry heap nodes i merge)
      (Merged rest heap
        ((visible heap nodes).set i (result (heap.cell (nodes.getD i 0)).toLCFGDerivation).1,
          (result (heap.cell (nodes.getD i 0)).toLCFGDerivation).2)) := by
  obtain ⟨counts, built, others⟩ := owned.parts inside
  have own : nodes.set i (nodes.getD i 0) = nodes := by
    simp [List.getD_eq_getElem?_getD, inside]
  unfold modifyEntry
  cases shared : RefCount.isShared heap (nodes.getD i 0) with
  | false =>
    rw [if_pos (by rw [shared]; rfl)]
    refine (merges _ built).bind fun r both => ?_
    obtain ⟨good, same⟩ := both
    obtain ⟨counts', agree⟩ := counts.write shared r.1
    have written : (RefCount.write heap (nodes.getD i 0) r.1).cell (nodes.getD i 0) = r.1 := by
      simp [RefCount.write]
    have merged := owned.replace inside counts' agree (by rwa [written]) r.2
    rw [written, own] at merged
    rw [← same]
    exact .pure merged
  | true =>
    rw [if_neg (by rw [shared]; decide)]
    refine (built.clone_spec valid).bind fun copy cloned => ?_
    obtain ⟨builtCopy, copied⟩ := cloned
    refine (merges _ builtCopy).bind fun r both => ?_
    obtain ⟨good, same⟩ := both
    rw [copied] at same
    -- the clone, and the entry it was made of
    obtain ⟨countsC, agreeC, -⟩ := counts.alloc copy
    have alone : RefCount.isShared (RefCount.alloc heap copy).2 heap.fresh = false := by
      simp [RefCount.isShared, RefCount.alloc]
    obtain ⟨countsW, agreeW⟩ := countsC.write alone r.1
    rw [← same]
    by_cases kept : r.2.isOk ∧ r.2 ≠ .none
    · rw [Multiset.cons_swap] at countsW
      obtain ⟨countsR, agreeR⟩ := countsW.relinquish {}
      have written : (RefCount.relinquish {} (RefCount.write (RefCount.alloc heap copy).2
          heap.fresh r.1) (nodes.getD i 0)).cell heap.fresh = r.1 := by
        rw [agreeR _ (Multiset.mem_cons_self _ _)]
        simp [RefCount.write]
      have agree : Agree (nodes.eraseIdx i + rest : Multiset Addr) heap
          (RefCount.relinquish {} (RefCount.write (RefCount.alloc heap copy).2 heap.fresh r.1)
            (nodes.getD i 0)) := fun a member => by
        rw [agreeR a (Multiset.mem_cons_of_mem member), agreeW a (Multiset.mem_cons_of_mem member),
          agreeC a (Multiset.mem_cons_of_mem member)]
      have merged := owned.replace inside countsR agree (by rwa [written]) r.2
      rw [written] at merged
      refine .inr ⟨_, ?_, merged⟩
      simp [keepClone, kept, RefCount.alloc]
    · obtain ⟨countsR, agreeR⟩ := countsW.relinquish {}
      have agree : Agree (nodes.getD i 0 ::ₘ (nodes.eraseIdx i + rest : Multiset Addr)) heap
          (RefCount.relinquish {} (RefCount.write (RefCount.alloc heap copy).2 heap.fresh r.1)
            heap.fresh) := (agreeC.trans agreeW).trans agreeR
      have nothing : r.2 = .error ∨ r.2 = .none := by
        rw [not_and_or, not_not] at kept
        exact kept.imp_left fun failed => by simpa [LCFGChange.isOk] using failed
      obtain ⟨same₁, same₂⟩ := Prod.ext_iff.mp same
      dsimp only at same₁ same₂
      rw [same₂] at nothing
      rw [unchanged _ nothing] at same₁
      have here := agree _ (Multiset.mem_cons_self _ _)
      have merged := owned.replace inside countsR
        (fun a member => agree a (Multiset.mem_cons_of_mem member)) (by rwa [here]) r.2
      rw [here, own, ← same₁] at merged
      refine .inr ⟨_, ?_, merged⟩
      simp [keepClone, kept, RefCount.alloc]

/-! ### Merging one derivation -/

theorem Owned.acquire (owned : Owned rest heap nodes) {a : Addr}
    (there : a ∈ (nodes + rest : Multiset Addr)) (change : LCFGChange) :
    Merged rest heap (visible heap nodes ++ [(heap.cell a).toLCFGDerivation], change)
      (RefCount.acquire heap a, nodes ++ [a], change) := by
  have total : ((nodes ++ [a] : List Addr) + rest : Multiset Addr) =
      a ::ₘ (nodes + rest : Multiset Addr) := by
    rw [← Multiset.cons_add, Multiset.cons_coe, Multiset.coe_eq_coe.mpr (List.perm_append_singleton a nodes)]
  refine ⟨⟨?_, fun b member => ?_⟩, Agree.refl _ _, ?_⟩
  · rw [total]
    exact owned.counts.acquire (owned.counts.allocated a there)
  · rw [total] at member
    rcases Multiset.mem_cons.mp member with rfl | old
    · exact owned.built _ there
    · exact owned.built b old
  · simp [visible, RefCount.acquire]

theorem Owned.unchanged (owned : Owned rest heap nodes) (change : LCFGChange) :
    Merged rest heap (visible heap nodes, change) (heap, nodes, change) :=
  ⟨owned, Agree.refl _ _, rfl⟩

theorem mergeShared_spec (owned : Owned rest heap nodes) {newDrv : Addr}
    (there : newDrv ∈ (nodes + rest : Multiset Addr)) :
    Yields full (mergeShared heap nodes newDrv)
      (Merged rest heap (mergeDerivation (visible heap nodes)
        (heap.cell newDrv).toLCFGDerivation)) := by
  unfold mergeShared mergeDerivation
  simp only
  split
  · exact .pure (owned.unchanged _)
  · rw [findIdx_visible]
    cases found : findNode heap nodes (orDefault (heap.cell newDrv).file "") with
    | none => exact .pure (owned.acquire there _)
    | some i =>
      obtain ⟨inside, valid⟩ := findNode_some found
      dsimp only
      rw [visible_getD inside]
      split
      case isTrue same =>
        -- a derivation which is in the list has nothing to add to itself
        have place : i < (visible heap nodes).length := by rwa [visible_length]
        rw [same, Derivation.mergeLines_self, ← same, ← visible_getD inside {},
          List.getD_eq_getElem?_getD, List.getElem?_eq_getElem place, Option.getD_some,
          List.set_getElem_self place]
        exact .pure (owned.unchanged _)
      case isFalse other =>
        have builtNew := owned.built newDrv there
        refine modifyEntry_spec owned inside valid _
          (fun drv => Derivation.mergeLines drv (heap.cell newDrv).toLCFGDerivation)
          (fun drv built => built.mergeLines_spec builtNew) fun drv nothing => ?_
        obtain ⟨-, -, ⟨-, same⟩ | ⟨-, modified⟩⟩ :=
          Derivation.mergeLines_spec drv (heap.cell newDrv).toLCFGDerivation
        · rw [same]
        · rw [modified] at nothing
          simp at nothing

/-! ### Whole lists of references -/

/-- The references of a list which is destroyed are given up one after the other. -/
theorem relinquishAll_spec (counts : Counts heap (nodes + rest : Multiset Addr)) :
    Counts (relinquishAll heap nodes) rest ∧ Agree rest heap (relinquishAll heap nodes) := by
  induction nodes generalizing heap with
  | nil => exact ⟨by simpa [relinquishAll] using counts, Agree.refl _ _⟩
  | cons a nodes ih =>
    rw [← Multiset.cons_coe, Multiset.cons_add] at counts
    obtain ⟨counts', agree⟩ := counts.relinquish {}
    obtain ⟨counts'', agree'⟩ := ih counts'
    exact ⟨counts'', (agree.mono fun b member => Multiset.mem_add.mpr (.inr member)).trans agree'⟩

/-- A clone of a list has a reference to each of its entries. -/
theorem acquireAll_spec {held : Multiset Addr} (counts : Counts heap held)
    (there : ∀ a ∈ nodes, a ∈ held) :
    Counts (acquireAll heap nodes) (nodes + held : Multiset Addr) ∧
      (acquireAll heap nodes).cell = heap.cell := by
  induction nodes generalizing heap held with
  | nil => exact ⟨by simpa [acquireAll] using counts, rfl⟩
  | cons a nodes ih =>
    have counts' := counts.acquire (counts.allocated a (there a List.mem_cons_self))
    obtain ⟨good, same⟩ := ih counts' fun b member =>
      Multiset.mem_cons_of_mem (there b (List.mem_cons_of_mem a member))
    refine ⟨?_, same⟩
    rwa [Multiset.add_cons, ← Multiset.cons_add, Multiset.cons_coe] at good

/-! ### Derivations of the caller -/

theorem Owned.alloc (owned : Owned rest heap nodes) {drv : StoredDerivation} (built : Built drv) :
    Owned (heap.fresh ::ₘ rest) (RefCount.alloc heap drv).2 nodes ∧
      Agree (nodes + rest : Multiset Addr) heap (RefCount.alloc heap drv).2 ∧
      (RefCount.alloc heap drv).2.cell heap.fresh = drv := by
  obtain ⟨counts, agree, here⟩ := owned.counts.alloc drv
  have moved : heap.fresh ::ₘ (nodes + rest : Multiset Addr) = nodes + heap.fresh ::ₘ rest := by
    rw [Multiset.add_cons]
  refine ⟨⟨by rwa [← moved], fun a member => ?_⟩, agree, here⟩
  rw [← moved] at member
  rcases Multiset.mem_cons.mp member with rfl | old
  · rwa [here]
  · rw [agree a old]
    exact owned.built a old

/-- References are given up after a merge. -/
theorem Merged.releaseAll {extra : List Addr} {result : LCFGDerivationList × LCFGChange}
    {r : DerivHeap × List Addr × LCFGChange} (merged : Merged (extra + rest) heap' result r)
    (agree : Agree rest heap heap') :
    Merged rest heap result (relinquishAll r.1 extra, r.2.1, r.2.2) := by
  have moved : (r.2.1 + (extra + rest) : Multiset Addr) = extra + (r.2.1 + rest) := by
    rw [← Multiset.add_assoc, Multiset.add_comm (r.2.1 : Multiset Addr), Multiset.add_assoc]
  have counts := merged.owned.counts
  rw [moved] at counts
  obtain ⟨countsR, kept⟩ := relinquishAll_spec counts
  refine ⟨⟨countsR, fun b member => ?_⟩, fun b member => ?_, ?_⟩
  · rw [kept b member]
    apply merged.owned.built
    rw [moved]
    exact Multiset.mem_add.mpr (.inr member)
  · rw [kept b (Multiset.mem_add.mpr (.inr member)),
      merged.agree b (Multiset.mem_add.mpr (.inr member)), agree b member]
  · rw [← merged.result]
    exact congrArg (·, r.2.2) (visible_congr (kept.mono fun b member =>
      Multiset.mem_add.mpr (.inl member)))

theorem Merged.release {a : Addr} {result : LCFGDerivationList × LCFGChange}
    {r : DerivHeap × List Addr × LCFGChange} (merged : Merged (a ::ₘ rest) heap' result r)
    (agree : Agree rest heap heap') :
    Merged rest heap result (RefCount.relinquish {} r.1 a, r.2.1, r.2.2) :=
  @releaseAll _ _ _ [a] _ _ merged agree

theorem mergeNew_spec (owned : Owned rest heap nodes) {drv : StoredDerivation}
    (built : Built drv) :
    Yields full (mergeNew heap nodes drv)
      (Merged rest heap (mergeDerivation (visible heap nodes) drv.toLCFGDerivation)) := by
  obtain ⟨owned', agree, here⟩ := owned.alloc built
  have same : visible (RefCount.alloc heap drv).2 nodes = visible heap nodes :=
    visible_congr (agree.mono fun a member => Multiset.mem_add.mpr (.inl member))
  have there : heap.fresh ∈ (nodes + heap.fresh ::ₘ rest : Multiset Addr) := by simp
  unfold mergeNew
  refine (mergeShared_spec owned' there).bind fun r merged => ?_
  rw [here, same] at merged
  exact .pure (merged.release (agree.mono fun a member => Multiset.mem_add.mpr (.inr member)))

/-- The changes that a merge of lines which fails, or finds nothing new, makes. -/
private theorem mergeLine_unchanged (drv : LCFGDerivation) (line : Nat)
    (nothing : (Derivation.mergeLine drv line).2 = .error ∨
      (Derivation.mergeLine drv line).2 = .none) : (Derivation.mergeLine drv line).1 = drv := by
  unfold Derivation.mergeLine at nothing ⊢
  split at nothing
  case isTrue old => rw [if_pos old]
  case isFalse new => simp at nothing

theorem mergeFileLineShared_spec (owned : Owned rest heap nodes) (filename : Option String)
    (line : Int32) :
    Yields full (mergeFileLineShared heap nodes filename line)
      (Merged rest heap (mergeFileLine (visible heap nodes) filename line)) := by
  have small : line.toInt.toNat < 2 ^ 32 := by
    have bound := line.toInt_lt
    omega
  unfold mergeFileLineShared mergeFileLine
  simp only
  split
  · exact .pure (owned.unchanged _)
  · rw [findIdx_visible]
    cases found : findNode heap nodes (orDefault filename "") with
    -- without an entry for the file a new one is made, and acquired by the list
    | none =>
      have made : Yields full (StoredDerivation.ofFileLine filename line) fun r =>
          Built r.1 ∧ r.2.isOk = true ∧ r.1.toLCFGDerivation =
            ⟨filename, if 0 ≤ line.toInt then [line.toInt.toNat] else []⟩ := by
        unfold StoredDerivation.ofFileLine
        simp only
        split
        · refine ((StoredDerivation.built_file filename).mergeLine_spec small).mono
            fun r both => ?_
          obtain ⟨good, same⟩ := both
          obtain ⟨same₁, same₂⟩ := Prod.ext_iff.mp same
          exact ⟨good, by rw [show r.2 = _ from same₂]; rfl, same₁⟩
        · exact .pure ⟨StoredDerivation.built_file filename, rfl, rfl⟩
      refine made.bind fun r all => ?_
      obtain ⟨good, ok, same⟩ := all
      obtain ⟨owned', agree, here⟩ := owned.alloc good
      have shown : visible (RefCount.alloc heap r.1).2 nodes = visible heap nodes :=
        visible_congr (agree.mono fun a member => Multiset.mem_add.mpr (.inl member))
      have appended := owned'.acquire (a := heap.fresh) (by simp) .added
      rw [here, same, shown] at appended
      refine .inr ⟨_, ?_, appended.release
        (agree.mono fun a member => Multiset.mem_add.mpr (.inr member))⟩
      simp only [ok, if_true]
      rfl
    | some i =>
      obtain ⟨inside, valid⟩ := findNode_some found
      dsimp only
      rw [visible_getD inside]
      split
      case isTrue given =>
        split
        case isTrue old =>
          -- the line is there already
          have place : i < (visible heap nodes).length := by rwa [visible_length]
          rw [Derivation.mergeLine, if_pos old, ← visible_getD inside {},
            List.getD_eq_getElem?_getD, List.getElem?_eq_getElem place, Option.getD_some,
            List.set_getElem_self place]
          exact .pure (owned.unchanged _)
        case isFalse new =>
          exact modifyEntry_spec owned inside valid _
            (fun drv => Derivation.mergeLine drv line.toInt.toNat)
            (fun drv built => built.mergeLine_spec small)
            fun drv => mergeLine_unchanged drv _
      case isFalse absent => exact .pure (owned.unchanged _)

/-! ### Merging lists -/

private theorem mergeEntries_error (drvlist : LCFGDerivationList) (more : LCFGDerivationList) :
    more.foldl mergeEntry (drvlist, .error) = (drvlist, .error) := by
  induction more with
  | nil => rfl
  | cons drv more ih => rwa [List.foldl_cons, mergeEntry, if_pos (by simp)]

theorem Merged.trans {result₁ result₂ : LCFGDerivationList × LCFGChange}
    {r₁ r₂ : DerivHeap × List Addr × LCFGChange} (first : Merged rest heap result₁ r₁)
    (second : Merged rest r₁.1 result₂ r₂) : Merged rest heap result₂ r₂ :=
  ⟨second.owned, first.agree.trans second.agree, second.result⟩

/-- Run lemma: the entries of a list of others are merged one after the other. -/
private theorem mergeEach_spec (owned : Owned rest heap nodes) (change : LCFGChange)
    (nodes2 : List Addr) (others : ∀ a ∈ nodes2, a ∈ rest) :
    Yields full (mergeEach heap nodes change nodes2)
      (Merged rest heap ((visible heap nodes2).foldl mergeEntry (visible heap nodes, change))) := by
  induction nodes2 generalizing heap nodes change with
  | nil => exact .pure (owned.unchanged _)
  | cons drv nodes2 ih =>
    have later := fun a member => others a (List.mem_cons_of_mem drv member)
    have shown : visible heap (drv :: nodes2) =
        (heap.cell drv).toLCFGDerivation :: visible heap nodes2 := rfl
    rw [mergeEach, shown, List.foldl_cons]
    split
    case isTrue failed =>
      -- an error ends the loop
      have error : change = .error := by simpa [LCFGChange.isOk] using failed
      rw [error, mergeEntry, if_pos (by simp), mergeEntries_error]
      exact .pure (owned.unchanged _)
    case isFalse fine =>
      have ok : ¬ change = .error := by simpa [LCFGChange.isOk] using fine
      split
      case isTrue invalid =>
        rw [mergeEntry, if_pos (by simp [invalid])]
        exact ih owned change later
      case isFalse valid =>
        have there : drv ∈ (nodes + rest : Multiset Addr) :=
          Multiset.mem_add.mpr (.inr (others drv List.mem_cons_self))
        refine (mergeShared_spec owned there).bind fun r merged => ?_
        -- the entries to come are held elsewhere, so that this merge leaves them as they are
        have same : visible r.1 nodes2 = visible heap nodes2 :=
          visible_congr (merged.agree.mono fun a member => later a (Multiset.mem_coe.mp member))
        refine (ih merged.owned _ later).mono fun r' merged' => merged.trans ?_
        rw [same] at merged'
        convert merged' using 2
        rw [mergeEntry, if_neg (by simp [ok, valid]), ← merged.result]
        cases r.2.2 <;> simp

theorem mergeListShared_spec (owned : Owned rest heap nodes) {nodes2 : List Addr}
    (others : ∀ a ∈ nodes2, a ∈ rest) :
    Yields full (mergeListShared heap nodes nodes2)
      (Merged rest heap (mergeList (visible heap nodes) (visible heap nodes2))) :=
  mergeEach_spec owned .none nodes2 others

/-- In a list with one entry for each file, an entry is found by its file. -/
private theorem findNode_self (files : ((visible heap nodes).map (·.file)).Nodup)
    (inside : i < nodes.length)
    (valid : Derivation.isValid (heap.cell (nodes.getD i 0)).toLCFGDerivation = true) :
    findNode heap nodes (orDefault (heap.cell (nodes.getD i 0)).file "") = some i := by
  have bound {j : Nat} (place : j < nodes.length) : j < (visible heap nodes).length := by
    rwa [visible_length]
  have entry (j : Nat) (place : j < nodes.length) (here : j < (visible heap nodes).length) :
      (visible heap nodes)[j] = (heap.cell (nodes.getD j 0)).toLCFGDerivation := by
    simp [visible, List.getD_eq_getElem?_getD, place]
  unfold findNode
  rw [List.findIdx?_eq_some_iff_getElem]
  refine ⟨by rwa [visible_length], ?_, fun j before => ?_⟩
  · rw [entry i inside (bound inside), valid, Derivation.matchFile]
    simp
  · have place : j < nodes.length := by omega
    rw [entry j place (bound place)]
    intro found
    rw [Bool.and_eq_true, Derivation.matchFile, beq_iff_eq] at found
    have placed {k : Nat} (here : k < nodes.length) :
        k < ((visible heap nodes).map (·.file)).length := by
      simpa [visible] using here
    have placedJ := placed place
    have placedI := placed inside
    have same : ((visible heap nodes).map (·.file))[j] = ((visible heap nodes).map (·.file))[i] := by
      rw [List.getElem_map, List.getElem_map, entry j place, entry i inside,
        Derivation.file_of_valid found.1, Derivation.file_of_valid valid, found.2]
    exact absurd ((List.Nodup.getElem_inj_iff files).mp same) (by omega)

/-- A list which is merged into itself stays as it is. -/
theorem mergeListShared_self (files : ((visible heap nodes).map (·.file)).Nodup) :
    mergeListShared heap nodes nodes = .ok (heap, nodes, .none) := by
  have step : ∀ nodes2 : List Addr, nodes2 ⊆ nodes →
      mergeEach heap nodes .none nodes2 = .ok (heap, nodes, .none) := by
    intro nodes2
    induction nodes2 with
    | nil => exact fun _ => rfl
    | cons drv nodes2 ih =>
      intro sub
      rw [List.cons_subset] at sub
      rw [mergeEach, if_neg (by decide)]
      split
      case isTrue invalid => exact ih sub.2
      case isFalse valid =>
        rw [Bool.not_eq_true', Bool.not_eq_false] at valid
        obtain ⟨i, inside, rfl⟩ := List.getElem_of_mem sub.1
        have entry : nodes.getD i 0 = nodes[i] := by
          simp [List.getD_eq_getElem?_getD, inside]
        have found := findNode_self files inside (by rwa [entry])
        rw [entry] at found
        have merged : mergeShared heap nodes nodes[i] = .ok (heap, nodes, .none) := by
          rw [mergeShared]
          simp only [valid, Bool.not_true, Bool.false_eq_true, if_false, found, entry, if_true]
        simp only [merged, bind, Except.bind]
        exact ih sub.2
  exact step nodes (List.Subset.refl _)

/-! ### Texts -/

/-- A new list which was read from a text, or nothing but the message of an error. -/
structure Parsed (rest : Multiset Addr) (heap : DerivHeap)
    (result : Except String LCFGDerivationList) (r : DerivHeap × Except String (List Addr)) :
    Prop where
  owned : Owned rest r.1 (r.2.toOption.getD [])
  agree : Agree rest heap r.1
  result : r.2.map (visible r.1) = result

/-- The list so far is destroyed after an error. -/
private theorem Owned.failed (owned : Owned rest heap nodes) (msg : String) :
    Parsed rest heap (.error msg) (relinquishAll heap nodes, .error msg) := by
  obtain ⟨counts, agree⟩ := relinquishAll_spec owned.counts
  refine ⟨⟨?_, fun a member => ?_⟩, agree, rfl⟩
  · simpa [Except.toOption] using counts
  · have there : a ∈ rest := by simpa [Except.toOption] using member
    rw [agree a there]
    exact owned.built a (Multiset.mem_add.mpr (.inr there))

private theorem addTokens_spec (owned : Owned rest heap nodes) (tokens : List (List Char)) :
    Yields full (addTokens heap nodes tokens)
      (Parsed rest heap (tokens.foldlM addToken (visible heap nodes))) := by
  induction tokens generalizing heap nodes with
  | nil => exact .pure ⟨owned, Agree.refl _ _, rfl⟩
  | cons token tokens ih =>
    rw [addTokens, List.foldlM_cons]
    refine (StoredDerivation.fromString_spec token).bind fun parsed ⟨good, same⟩ => ?_
    cases parsed with
    -- the token is no derivation: the list made so far is destroyed
    | error msg =>
      have step : addToken (visible heap nodes) token =
          .error ("Failed to parse derivation '" ++ String.ofList token ++ "': " ++ msg) := by
        rw [addToken, ← same]
        rfl
      rw [step]
      exact .pure (owned.failed _)
    | ok drv =>
      refine (mergeNew_spec owned (good drv rfl)).bind fun r merged => ?_
      have step : addToken (visible heap nodes) token =
          if r.2.2 = .error then
            .error ("Failed to add derivation '" ++ String.ofList token ++ "' to list")
          else .ok (visible r.1 r.2.1) := by
        rw [addToken, ← same]
        simp only [Except.map, ← merged.result]
        cases r.2.2 <;> rfl
      rw [step]
      by_cases failed : r.2.2 = .error
      -- and the same where it cannot be added
      · have destroyed := merged.owned.failed
          ("Failed to add derivation '" ++ String.ofList token ++ "' to list")
        rw [if_pos failed]
        simp only [failed, if_true]
        exact .pure ⟨destroyed.owned, merged.agree.trans destroyed.agree, rfl⟩
      · rw [if_neg failed]
        simp only [if_neg failed]
        exact (ih merged.owned).mono fun r' later =>
          ⟨later.owned, merged.agree.trans later.agree, later.result⟩

theorem parseShared_spec (owned : Owned rest heap []) (input : List Char) :
    Yields full (parseShared heap input) (Parsed rest heap (fromString input)) := by
  unfold parseShared fromString
  simp only
  split
  · exact .pure (owned.failed _)
  · exact addTokens_spec owned _

theorem mergeStringListShared_spec (owned : Owned rest heap nodes) (input : List Char) :
    Yields full (mergeStringListShared heap nodes input)
      (Merged rest heap (mergeStringList (visible heap nodes) input)) := by
  -- the entries of the list itself are among those of others for the new list
  have counts : Owned (nodes + rest) heap [] := by
    refine ⟨?_, fun a member => ?_⟩
    · simpa using owned.counts
    · exact owned.built a (by simpa using member)
  unfold mergeStringListShared mergeStringList
  refine (parseShared_spec counts input).bind fun r parsed => ?_
  have shown : visible r.1 nodes = visible heap nodes :=
    visible_congr (parsed.agree.mono fun a member => Multiset.mem_add.mpr (.inl member))
  have agree : Agree rest heap r.1 :=
    parsed.agree.mono fun a member => Multiset.mem_add.mpr (.inr member)
  obtain ⟨heap', parse⟩ := r
  rw [← parsed.result]
  cases parse with
  | error msg =>
    refine .pure ⟨⟨?_, fun a member => ?_⟩, agree, congrArg (·, LCFGChange.error) shown⟩
    · simpa [Except.toOption] using parsed.owned.counts
    · exact parsed.owned.built a (by simpa [Except.toOption] using member)
  | ok extra =>
    have moved : (extra + (nodes + rest) : Multiset Addr) = nodes + (extra + rest) := by
      rw [← Multiset.add_assoc, Multiset.add_comm (extra : Multiset Addr), Multiset.add_assoc]
    have owned' : Owned (extra + rest) heap' nodes := by
      refine ⟨?_, fun a member => ?_⟩
      · rw [← moved]
        exact parsed.owned.counts
      · rw [← moved] at member
        exact parsed.owned.built a member
    refine (mergeListShared_spec owned' fun a member => Multiset.mem_add.mpr (.inl member)).bind
      fun r merged => ?_
    rw [shown] at merged
    exact .pure (merged.releaseAll agree)

end DerivList
end Lcfg
