import LcfgCore.DerivationContent
import LcfgCore.DerivationSharing
import Mathlib.Algebra.BigOperators.Group.Finset.Basic
import Mathlib.Algebra.Order.BigOperators.Group.Finset
import Mathlib.Algebra.Order.Group.Multiset

/-!
# Runs over derivation lists

Any number of lists which share their derivations, cloned and merged in any order.

## Main results

`run_contents`: what the lists contain after a run, and what each merge reports.
`run_isolated`: a merge into one list is not seen through any other.
`run_round_trip`: which of the lists are read back as they were written.
-/
namespace Lcfg
namespace DerivList

open RefCount (Counts Agree)
open Outcome (Yields)
open StoredDerivation (Built full)

structure DerivFamily (ι : Type) where
  heap : DerivHeap
  lists : ι → List Addr

/-- What is merged into a list: a new derivation of the caller, one that was found in a
list, a line of a file, another list or a text. -/
inductive DerivMerge (ι : Type) where
  | derivation (file : Option String) (lines : List UInt32)
  | found (other : ι) (wantFile : String)
  | fileLine (filename : Option String) (line : Int32)
  | list (other : ι)
  | stringList (input : String)

/-- A clone takes the place of a list which is destroyed. -/
inductive DerivOp (ι : Type) where
  | clone (i original : ι)
  | merge (i : ι) (what : DerivMerge ι)

namespace DerivFamily

variable {ι : Type} [DecidableEq ι]

def new : DerivFamily ι := ⟨⟨fun _ => {}, fun _ => 0, 0⟩, fun _ => []⟩

def shown (w : DerivFamily ι) (i : ι) : LCFGDerivationList := visible w.heap (w.lists i)

def mergeInto (w : DerivFamily ι) (i : ι) :
    DerivMerge ι → Except OutOfBounds (DerivHeap × List Addr × LCFGChange)
  | .derivation file lines => do
    let (drv, _) ← StoredDerivation.mergeEach { file := file } .none (lines.map UInt32.toNat)
    mergeNew w.heap (w.lists i) drv
  | .found other wantFile =>
    match findNode w.heap (w.lists other) wantFile with
    | none => .ok (w.heap, w.lists i, .none)
    | some k => mergeShared w.heap (w.lists i) ((w.lists other).getD k 0)
  | .fileLine filename line => mergeFileLineShared w.heap (w.lists i) filename line
  | .list other => mergeListShared w.heap (w.lists i) (w.lists other)
  | .stringList input => mergeStringListShared w.heap (w.lists i) input.toList

def step (w : DerivFamily ι) : DerivOp ι → Except OutOfBounds (DerivFamily ι × LCFGChange)
  | .clone i original =>
    .ok (⟨relinquishAll (acquireAll w.heap (w.lists original)) (w.lists i),
      Function.update w.lists i (w.lists original)⟩, .none)
  | .merge i what => do
    let (heap, nodes, change) ← w.mergeInto i what
    .ok (⟨heap, Function.update w.lists i nodes⟩, change)

def run (w : DerivFamily ι) :
    List (DerivOp ι) → Except OutOfBounds (DerivFamily ι × List LCFGChange)
  | [] => .ok (w, [])
  | op :: ops => do
    let (w, change) ← w.step op
    let (w, changes) ← w.run ops
    .ok (w, change :: changes)

end DerivFamily

/-! ### The same merges of sets -/

section Contents

variable {ι : Type} [DecidableEq ι]

/-- The files and lines of one file. -/
def restrict (c : DerivContent) (file : String) : DerivContent :=
  ({other | other ∈ c.1 ∧ other = file}, {line | line ∈ c.2 ∧ line.1 = file})

/-- What a merge has to add when the lists contain `c`; it fails without a file, or for
a text which cannot be parsed. -/
def added (c : ι → DerivContent) : DerivMerge ι → Option DerivContent
  | .derivation file lines =>
    if isEmpty file then none else some (content [⟨file, lines.map UInt32.toNat⟩])
  | .found other wantFile => some (restrict (c other) wantFile)
  | .fileLine filename line =>
    if isEmpty filename then some ⊥
    else some (content [⟨filename, if 0 ≤ line.toInt then [line.toInt.toNat] else []⟩])
  | .list other => some (c other)
  | .stringList input => (fromString input.toList).toOption.map content

inductive ContentStep : (ι → DerivContent) → DerivOp ι → (ι → DerivContent) → LCFGChange → Prop
  where
  | clone (c : ι → DerivContent) (i original : ι) :
    ContentStep c (.clone i original) (Function.update c i (c original)) .none
  | merge (c : ι → DerivContent) (i : ι) (what : DerivMerge ι) (more : DerivContent)
      (change : LCFGChange) (adds : added c what = some more) (ok : change ≠ .error)
      (none_iff : change = .none ↔ c i ⊔ more = c i) :
    ContentStep c (.merge i what) (Function.update c i (c i ⊔ more)) change
  | refuse (c : ι → DerivContent) (i : ι) (what : DerivMerge ι) (fails : added c what = none) :
    ContentStep c (.merge i what) c .error

inductive ContentRun :
    (ι → DerivContent) → List (DerivOp ι) → (ι → DerivContent) → List LCFGChange → Prop where
  | nil (c : ι → DerivContent) : ContentRun c [] c []
  | cons {first second third : ι → DerivContent} {op : DerivOp ι} {ops : List (DerivOp ι)}
      {change : LCFGChange} {changes : List LCFGChange} (step : ContentStep first op second change)
      (rest : ContentRun second ops third changes) :
    ContentRun first (op :: ops) third (change :: changes)

end Contents

/-! ### The effect on one list -/

section Effects

variable {ι : Type} {c : ι → DerivContent} {drvlist : LCFGDerivationList}

/-- What comes of a merge into a list, by the sets alone. -/
def Effect (c : ι → DerivContent) (what : DerivMerge ι) (drvlist : LCFGDerivationList)
    (result : LCFGDerivationList × LCFGChange) : Prop :=
  added c what = none ∧ result = (drvlist, .error) ∨
    ∃ more, added c what = some more ∧ Adds drvlist more result

private theorem derivation_effect (wf : WellFormed drvlist) (file : Option String) (lines : List UInt32)
    {drv : LCFGDerivation}
    (made : drv = (Derivation.mergeLines ⟨file, []⟩ ⟨file, lines.map UInt32.toNat⟩).1) :
    Effect c (.derivation file lines) drvlist (mergeDerivation drvlist drv) := by
  obtain ⟨sameFile, sameLines, -⟩ :=
    Derivation.mergeLines_spec ⟨file, []⟩ ⟨file, lines.map UInt32.toNat⟩
  have distinct := @Derivation.mergeLines_nodup ⟨file, []⟩ List.nodup_nil
    ⟨file, lines.map UInt32.toNat⟩
  rw [← made] at sameFile sameLines distinct
  dsimp only at sameFile
  by_cases none_ : isEmpty file = true
  · refine .inl ⟨if_pos none_, ?_⟩
    have invalid : Derivation.isValid drv = false := by
      rw [Derivation.isValid, sameFile, none_, Bool.not_true]
    rw [mergeDerivation, invalid, Bool.not_false, if_pos rfl]
  · have entry : Derivation.WellFormed drv := by
      refine ⟨?_, distinct, fun line member => ?_⟩
      · rw [Derivation.isValid, sameFile, Bool.eq_false_iff.mpr none_, Bool.not_false]
      · obtain old | new := (sameLines line).mp member
        · cases old
        · obtain ⟨number, -, rfl⟩ := List.mem_map.mp new
          exact number.toNat_lt
    have same : content [drv] = content [⟨file, lines.map UInt32.toNat⟩] := by
      refine Prod.ext (Set.ext fun other => ?_) (Set.ext fun line => ?_)
      · simp [content, sameFile]
      · simp [content, sameFile, sameLines]
    refine .inr ⟨_, if_neg none_, ?_⟩
    rw [← same]
    exact mergeDerivation_adds wf entry

/-- The derivation of a file, found in a list, has the lines which the list has for it. -/
private theorem found_effect (wf : WellFormed drvlist) (other : ι) (wantFile : String) {drv : LCFGDerivation}
    {from_ : LCFGDerivationList} (wfFrom : WellFormed from_) (same : c other = content from_)
    (member : drv ∈ from_) (file : drv.file = some wantFile) :
    Effect c (.found other wantFile) drvlist (mergeDerivation drvlist drv) := by
  have whole : restrict (c other) wantFile = content [drv] := by
    rw [same]
    refine Prod.ext (Set.ext fun f => ?_) (Set.ext fun line => ?_)
    · constructor
      · rintro ⟨-, rfl⟩
        exact ⟨drv, List.mem_singleton_self _, file⟩
      · rintro ⟨d, isDrv, isFile⟩
        rw [List.mem_singleton.mp isDrv] at isFile
        refine ⟨⟨drv, member, isFile⟩, ?_⟩
        rw [file] at isFile
        exact (Option.some.inj isFile).symm
    · constructor
      · rintro ⟨⟨d, there, isFile, isLine⟩, same⟩
        have entry : d = drv :=
          List.inj_on_of_nodup_map wfFrom.files there member (by rw [isFile, file, same])
        rw [entry] at isFile isLine
        exact ⟨drv, List.mem_singleton_self _, isFile, isLine⟩
      · rintro ⟨d, isDrv, isFile, isLine⟩
        rw [List.mem_singleton.mp isDrv] at isFile isLine
        refine ⟨⟨drv, member, isFile, isLine⟩, ?_⟩
        rw [file] at isFile
        exact (Option.some.inj isFile).symm
  refine .inr ⟨_, rfl, ?_⟩
  rw [whole]
  exact mergeDerivation_adds wf (wfFrom.entries drv member)

private theorem notFound_effect {from_ : LCFGDerivationList}
    (wf : WellFormed drvlist) (other : ι) (wantFile : String) (same : c other = content from_)
    (absent : ∀ drv ∈ from_, drv.file ≠ some wantFile) :
    Effect c (.found other wantFile) drvlist (drvlist, .none) := by
  have nothing : restrict (c other) wantFile = ⊥ := by
    rw [same]
    refine Prod.ext (Set.ext fun f => ?_) (Set.ext fun line => ?_)
    · refine iff_of_false ?_ id
      rintro ⟨⟨d, there, isFile⟩, rfl⟩
      exact absent d there isFile
    · refine iff_of_false ?_ id
      rintro ⟨⟨d, there, isFile, -⟩, same⟩
      exact absent d there (by rw [isFile, same])
  refine .inr ⟨_, rfl, ?_⟩
  rw [nothing]
  exact Adds.nothing wf

end Effects

/-! ### One merge -/

namespace DerivFamily

variable {ι : Type} [Fintype ι] [DecidableEq ι] {w : DerivFamily ι}

/-- The references of all lists but one. -/
def others (w : DerivFamily ι) (i : ι) : Multiset Addr :=
  ∑ j ∈ Finset.univ.erase i, (w.lists j : Multiset Addr)

theorem lists_add_others (w : DerivFamily ι) (i : ι) :
    (w.lists i : Multiset Addr) + w.others i = ∑ j, (w.lists j : Multiset Addr) :=
  Finset.add_sum_erase _ (fun j => (w.lists j : Multiset Addr)) (Finset.mem_univ i)

theorem mem_others {i j : ι} (different : j ≠ i) {a : Addr} (member : a ∈ w.lists j) :
    a ∈ w.others i :=
  Multiset.mem_sum.mpr ⟨j, Finset.mem_erase.mpr ⟨different, Finset.mem_univ j⟩, member⟩

/-- The counts are the numbers of nodes which hold a derivation, and each list has one
entry for a file. -/
structure Coherent (w : DerivFamily ι) : Prop where
  counts : Counts w.heap (∑ i, (w.lists i : Multiset Addr))
  built : ∀ a ∈ ∑ i, (w.lists i : Multiset Addr), Built (w.heap.cell a)
  wf : ∀ i, WellFormed (w.shown i)

theorem Coherent.owned (coherent : Coherent w) (i : ι) :
    Owned (w.others i) w.heap (w.lists i) where
  counts := by
    rw [lists_add_others]
    exact coherent.counts
  built := by
    rw [lists_add_others]
    exact coherent.built

/-- The family with another heap and another list at one place. -/
def set (w : DerivFamily ι) (i : ι) (heap : DerivHeap) (nodes : List Addr) : DerivFamily ι :=
  ⟨heap, Function.update w.lists i nodes⟩

omit [Fintype ι] in
theorem shown_set_self (w : DerivFamily ι) (i : ι) (heap : DerivHeap) (nodes : List Addr) :
    (w.set i heap nodes).shown i = visible heap nodes := by
  simp [set, shown]

theorem others_set (w : DerivFamily ι) (i : ι) (heap : DerivHeap) (nodes : List Addr) :
    (w.set i heap nodes).others i = w.others i := by
  refine Finset.sum_congr rfl fun j member => ?_
  simp [set, Finset.ne_of_mem_erase member]

/-- The other lists show what they showed, as their derivations are the same. -/
theorem shown_set_of_ne (w : DerivFamily ι) {i j : ι} (different : j ≠ i) {heap : DerivHeap}
    (agree : Agree (w.others i) w.heap heap) (nodes : List Addr) :
    (w.set i heap nodes).shown j = w.shown j := by
  have kept : (w.set i heap nodes).lists j = w.lists j := by simp [set, different]
  rw [shown, kept]
  exact visible_congr fun a member => agree a (mem_others different (Multiset.mem_coe.mp member))

theorem Coherent.set (coherent : Coherent w) {i : ι} {heap : DerivHeap} {nodes : List Addr}
    (owned : Owned (w.others i) heap nodes) (agree : Agree (w.others i) w.heap heap)
    (wf : WellFormed (visible heap nodes)) : Coherent (w.set i heap nodes) := by
  have total : ∑ j, ((w.set i heap nodes).lists j : Multiset Addr) = nodes + w.others i := by
    rw [← lists_add_others _ i, others_set]
    simp [DerivFamily.set]
  refine ⟨?_, ?_, fun j => ?_⟩
  · rw [total]
    exact owned.counts
  · rw [total]
    exact owned.built
  · by_cases same : j = i
    · subst same
      rwa [shown_set_self]
    · rw [shown_set_of_ne w same agree]
      exact coherent.wf j

/-- Each merge has the effect which the sets ask for, and is not seen by others. -/
theorem Coherent.mergeInto_spec (coherent : Coherent w) (i : ι) (what : DerivMerge ι) :
    Yields full (w.mergeInto i what) fun r => ∃ result, Merged (w.others i) w.heap result r ∧
      Effect (fun j => content (w.shown j)) what (w.shown i) result := by
  have owned := coherent.owned i
  have wf := coherent.wf i
  cases what with
  | derivation file lines =>
    have small : ∀ line ∈ lines.map UInt32.toNat, line < 2 ^ 32 := by
      intro line member
      obtain ⟨number, -, rfl⟩ := List.mem_map.mp member
      exact number.toNat_lt
    -- the new derivation is built apart from the list, and then merged into it
    refine ((StoredDerivation.built_file file).mergeEach_spec .none _ small).bind
      fun r ⟨built, made⟩ => ?_
    exact (mergeNew_spec owned built).mono fun r' merged =>
      ⟨_, merged, derivation_effect wf file lines (congrArg Prod.fst made)⟩
  | found other wantFile =>
    -- what one list holds is held by this list or by the others
    have there (a : Addr) (member : a ∈ w.lists other) :
        a ∈ (w.lists i + w.others i : Multiset Addr) := by
      by_cases same : other = i
      · subst same
        exact Multiset.mem_add.mpr (.inl (Multiset.mem_coe.mpr member))
      · exact Multiset.mem_add.mpr (.inr (mem_others same member))
    cases look : findNode w.heap (w.lists other) wantFile with
    | none =>
      simp only [mergeInto, look]
      refine .pure ⟨_, owned.unchanged _, notFound_effect wf other wantFile rfl ?_⟩
      intro drv member file
      have not_ := List.findIdx?_eq_none_iff.mp look drv member
      have valid := ((coherent.wf other).entries drv member).file
      simp [valid, Derivation.matchFile, file] at not_
    | some k =>
      simp only [mergeInto, look]
      obtain ⟨inside, accepted, -⟩ := List.findIdx?_eq_some_iff_getElem.mp look
      have place : k < (w.lists other).length := by rwa [visible_length] at inside
      have entry : (visible w.heap (w.lists other))[k] =
          (w.heap.cell ((w.lists other).getD k 0)).toLCFGDerivation := by
        simp [visible, List.getD_eq_getElem?_getD, place]
      have member : (w.lists other).getD k 0 ∈ w.lists other := by
        simp [List.getD_eq_getElem?_getD, place]
      rw [Bool.and_eq_true, Derivation.matchFile, beq_iff_eq] at accepted
      refine (mergeShared_spec owned (there _ member)).mono fun r merged => ⟨_, merged, ?_⟩
      refine found_effect wf other wantFile (coherent.wf other) rfl ?_ ?_
      · rw [← entry]
        exact List.getElem_mem inside
      · rw [← entry, Derivation.file_of_valid accepted.1, accepted.2]
  | fileLine filename line =>
    refine (mergeFileLineShared_spec owned filename line).mono fun r merged =>
      ⟨_, merged, .inr ?_⟩
    by_cases none_ : isEmpty filename = true
    · refine ⟨_, if_pos none_, ?_⟩
      rw [mergeFileLine, if_pos none_]
      exact Adds.nothing wf
    · exact ⟨_, if_neg none_, mergeFileLine_adds wf (Bool.eq_false_iff.mpr none_) line⟩
  | list other =>
    -- a list which is merged into itself gains nothing
    by_cases same : other = i
    · subst same
      have kept := mergeListShared_self wf.files
      refine .inr ⟨_, kept, _, owned.unchanged _, .inr ⟨_, rfl, ?_⟩⟩
      have added := mergeList_adds wf wf.entries
      rwa [mergeList_self wf] at added
    · exact (mergeListShared_spec owned fun a member => mem_others same member).mono
        fun r merged => ⟨_, merged, .inr ⟨_, rfl, mergeList_adds wf (coherent.wf other).entries⟩⟩
  | stringList input =>
    -- the text is parsed into a list of its own
    refine (mergeStringListShared_spec owned input.toList).mono fun r merged => ⟨_, merged, ?_⟩
    unfold mergeStringList
    cases parsed : fromString input.toList with
    | error msg =>
      refine .inl ⟨?_, rfl⟩
      simp [added, parsed, Except.toOption]
    | ok extra =>
      refine .inr ⟨content extra, ?_, mergeList_adds wf (fromString_wellFormed parsed).entries⟩
      simp [added, parsed, Except.toOption]

/-! ### Runs -/

/-- Step lemma: the lists stay coherent, and contain what the sets contain. -/
theorem Coherent.step_spec (coherent : Coherent w) (op : DerivOp ι) :
    Yields full (w.step op) fun r => Coherent r.1 ∧
      ContentStep (fun i => content (w.shown i)) op (fun i => content (r.1.shown i)) r.2 := by
  cases op with
  | clone i original =>
    have all : ∀ a ∈ w.lists original, a ∈ ∑ j, (w.lists j : Multiset Addr) := fun a member =>
      Multiset.mem_sum.mpr ⟨original, Finset.mem_univ _, Multiset.mem_coe.mpr member⟩
    obtain ⟨counts, cells⟩ := acquireAll_spec coherent.counts all
    have moved : (w.lists original + ∑ j, (w.lists j : Multiset Addr) : Multiset Addr) =
        w.lists i + (w.lists original + w.others i) := by
      rw [← lists_add_others w i, ← Multiset.add_assoc, ← Multiset.add_assoc,
        Multiset.add_comm (w.lists original : Multiset Addr)]
    rw [moved] at counts
    obtain ⟨counts', agree⟩ := relinquishAll_spec counts
    change Yields full (.ok (w.set i (relinquishAll (acquireAll w.heap (w.lists original))
      (w.lists i)) (w.lists original), LCFGChange.none)) _
    generalize relinquishAll (acquireAll w.heap (w.lists original)) (w.lists i) = heap
      at counts' agree
    -- no derivation changes, but those of the old list may be destroyed
    have kept : Agree (w.lists original + w.others i : Multiset Addr) w.heap heap :=
      fun a member => (agree a member).trans (congrFun cells a)
    have owned : Owned (w.others i) heap (w.lists original) := by
      refine ⟨counts', fun a member => ?_⟩
      rw [kept a member]
      apply coherent.built
      rcases Multiset.mem_add.mp member with here | other
      · exact all a (Multiset.mem_coe.mp here)
      · rw [← lists_add_others w i]
        exact Multiset.mem_add.mpr (.inr other)
    have same : visible heap (w.lists original) = w.shown original :=
      visible_congr (kept.mono fun a member => Multiset.mem_add.mpr (.inl member))
    have others := kept.mono fun a member => Multiset.mem_add.mpr (.inr member)
    refine .pure ⟨coherent.set owned others (by rw [same]; exact coherent.wf original), ?_⟩
    have contents : (fun j => content ((w.set i heap (w.lists original)).shown j)) =
        Function.update (fun j => content (w.shown j)) i (content (w.shown original)) := by
      funext j
      by_cases here : j = i
      · subst here
        rw [Function.update_self, shown_set_self, same]
      · rw [Function.update_of_ne here, shown_set_of_ne w here others]
    rw [contents]
    exact .clone _ i original
  | merge i what =>
    refine (coherent.mergeInto_spec i what).bind fun r ⟨result, merged, effect⟩ => ?_
    have shown_ : visible r.1 r.2.1 = result.1 := congrArg Prod.fst merged.result
    have change : r.2.2 = result.2 := (Prod.ext_iff.mp merged.result).2
    have contents : (fun j => content ((w.set i r.1 r.2.1).shown j)) =
        Function.update (fun j => content (w.shown j)) i (content result.1) := by
      funext j
      by_cases same : j = i
      · subst same
        rw [Function.update_self, shown_set_self, shown_]
      · rw [Function.update_of_ne same, shown_set_of_ne w same merged.agree]
    have wf : WellFormed result.1 := by
      obtain ⟨-, rfl⟩ | ⟨more, -, adds⟩ := effect
      · exact coherent.wf i
      · exact adds.wf
    refine .pure ⟨coherent.set merged.owned merged.agree (by rwa [shown_]), ?_⟩
    change ContentStep _ _ (fun j => content ((w.set i r.1 r.2.1).shown j)) r.2.2
    rw [contents, change]
    obtain ⟨fails, rfl⟩ | ⟨more, adds, effect⟩ := effect
    · rw [Function.update_eq_self]
      exact .refuse _ i what fails
    · rw [effect.content_eq]
      exact .merge _ i what more _ adds effect.ok effect.none_iff

/-- Run lemma, by induction over the operations. -/
theorem Coherent.run_spec (coherent : Coherent w) (ops : List (DerivOp ι)) :
    Yields full (w.run ops) fun r => Coherent r.1 ∧
      ContentRun (fun i => content (w.shown i)) ops (fun i => content (r.1.shown i)) r.2 := by
  induction ops generalizing w with
  | nil => exact .pure ⟨coherent, .nil _⟩
  | cons op ops ih =>
    refine (coherent.step_spec op).bind fun r ⟨good, step⟩ => ?_
    exact (ih good).bind fun r' ⟨good', rest⟩ => .pure ⟨good', .cons step rest⟩

omit [DecidableEq ι] in
theorem new_coherent : Coherent (new : DerivFamily ι) := by
  have nothing : ∑ i, ((new : DerivFamily ι).lists i : Multiset Addr) = 0 := by
    simp [new]
  refine ⟨?_, ?_, fun i => ⟨by simp [new, shown, visible], by simp [new, shown, visible]⟩⟩
  · rw [nothing]
    exact ⟨fun a => by simp [new], by simp⟩
  · rw [nothing]
    simp

/-- Unless it stops because a derivation with 2^31 lines should get another one, each
run of clones and merges ends with lists that have one entry for a file and no line
twice in an entry; the files and lines of a list are those that were merged, and a
merge which does not fail reports `none` exactly if it added nothing. -/
theorem run_contents (ops : List (DerivOp ι)) :
    Yields full (new.run ops) fun r =>
      (∀ i, ((r.1.shown i).map (·.file)).Nodup ∧ ∀ drv ∈ r.1.shown i, drv.lines.Nodup) ∧
      ContentRun (fun _ => ⊥) ops (fun i => content (r.1.shown i)) r.2 := by
  refine (new_coherent.run_spec ops).mono fun r ⟨coherent, contents⟩ => ⟨fun i => ?_, ?_⟩
  · exact ⟨(coherent.wf i).files, fun drv member => ((coherent.wf i).entries drv member).lines⟩
  · have start : (fun i => content ((new : DerivFamily ι).shown i)) = fun _ => ⊥ := by
      funext i
      exact content_nil
    rwa [start] at contents

example : (new.run [.merge true (.stringList "a:1,2 b"), .clone false true,
    .merge false (.fileLine (some "a") 3), .merge true (.list false)]).map
      (fun r => (r.1.shown true, r.1.shown false, r.2)) =
    .ok ([⟨some "a", [1, 2, 3]⟩, ⟨some "b", []⟩], [⟨some "a", [1, 2, 3]⟩, ⟨some "b", []⟩],
      [.modified, .none, .added, .modified]) := by decide

/-- The text cannot be parsed, so the list stays as it is and an error is reported. -/
theorem unparsable_reported : ∃ w change,
    (new : DerivFamily Unit).step (.merge () (.stringList "")) = .ok (w, change) ∧
      ¬ (change = .none ↔ content (w.shown ()) = content ((new : DerivFamily Unit).shown ())) := by
  refine ⟨_, _, rfl, fun report => ?_⟩
  have error : LCFGChange.error = .none := report.mpr rfl
  cases error

/-- A list which is not empty, with files that have no blanks and colons, is read back
as it was written, with its lines in order. -/
theorem run_round_trip (ops : List (DerivOp ι)) :
    Yields full (new.run ops) fun r => ∀ i, r.1.shown i ≠ [] →
      (∀ drv ∈ r.1.shown i, ∀ c ∈ (drv.file.getD "").toList, isSpace c = false ∧ c ≠ ':') →
      ∃ read, fromString (toString (r.1.shown i)) = .ok read ∧
        List.Forall₂ (fun drv drv' => drv'.file = drv.file ∧
          ∀ line, line ∈ drv'.lines ↔ line ∈ drv.lines) (r.1.shown i) read := by
  refine (new_coherent.run_spec ops).mono fun r ⟨coherent, _⟩ i some_ clean => ?_
  have wf := coherent.wf i
  refine ⟨sortLines (r.1.shown i), (fromString_toString_iff wf some_).mpr fun drv member => ?_, ?_⟩
  · have free := clean drv member
    refine ⟨fun c inFile => ?_, fun c first => ?_, fun _ colon => (free ':' colon).2 rfl⟩
    · have blank : ∀ d ∈ " \n\r\t".toList, isSpace d = true := Fields.of_all (by decide)
      cases delimiter : isDelimiter c with
      | false => rfl
      | true =>
        have space := blank c (List.contains_iff_mem.mp delimiter)
        rw [(free c inFile).1] at space
        cases space
    · exact (free c (List.mem_of_mem_head? first)).1
  · rw [sortLines_eq wf, List.forall₂_map_right_iff, List.forall₂_same]
    exact fun drv member => ⟨rfl, fun line => (List.perm_insertionSort _ _).mem_iff⟩

/-- The text of an empty list is empty, and the empty text is refused. -/
theorem empty_refused : (new : DerivFamily Unit).run [] = .ok (new, []) ∧
    ∀ read, fromString (toString ((new : DerivFamily Unit).shown ())) ≠ .ok read := by
  refine ⟨rfl, fun read same => ?_⟩
  have refused : fromString (toString ((new : DerivFamily Unit).shown ())) =
      .error "Invalid derivation string" := by decide
  rw [refused] at same
  cases same

end DerivFamily

end DerivList
end Lcfg
