import LcfgCore.Library.Run
import LcfgCore.Packages.List
import Mathlib.Data.List.Perm.Basic

/-!
# Runs of package merges

What holds after any sequence of `lcfgpkglist_merge_package` calls on a list
that starts empty. A run refines the same merges on plain lists (`run_items`),
where each law is one lemma about a step and an induction over the calls.

## Main results

- `run_unique_keys`: without `LCFG_MERGE_RULE_KEEP_ALL` a list has one package for each key.
- `run_distinct_iff`: when squashing identical packages leaves no two equal ones.
- `run_keeps_pin`: what a pinned package is protected from.
-/
namespace Lcfg.PkgList

/-- One call: the package, which may be missing, and the message so far. -/
structure MergeCall where
  new : Option Addr
  msg : Option Message := none

/-- The fields of a package which the primary key of the list selects. -/
structure PkgKey where
  name : String
  arch : Option String
  ctx : Option String
deriving DecidableEq, Repr

def key (primaryKey : LCFGPkgListPK) (p : LCFGPackage) : PkgKey where
  name := p.name.getD ""
  arch := if primaryKey.arch then some (p.arch.getD "") else none
  ctx := if primaryKey.ctx then some (p.context.getD "") else none

section Runs

variable (vercmp : VersionOrder) (pkg : Addr → LCFGPackage)

/-- A call changes the list and, when packages are replaced, their derivations. -/
def mergeStep (state : LCFGPackageList × DerivStore) (call : MergeCall) :
    LCFGPackageList × DerivStore :=
  let result := mergePackage vercmp pkg state.2 state.1 call.new call.msg
  (result.list, result.derivs)

def run (state : LCFGPackageList × DerivStore) (calls : List MergeCall) :
    LCFGPackageList × DerivStore :=
  calls.foldl (mergeStep vercmp pkg) state

def stepItems (primaryKey : LCFGPkgListPK) (rules : LCFGMergeRule) (xs : List Addr)
    (call : MergeCall) : List Addr :=
  match call.new.filter fun a => Package.isValid (pkg a) with
  | none => xs
  | some new => (mergeItems vercmp pkg primaryKey rules xs new).1

end Runs

variable {vercmp : VersionOrder} {pkg : Addr → LCFGPackage}

theorem sameKey_iff (primaryKey : LCFGPkgListPK) (new cur : LCFGPackage) :
    sameKey primaryKey new cur = true ↔ key primaryKey cur = key primaryKey new := by
  have arch := Package.arch_ne_wildcard new
  cases archs : primaryKey.arch <;> cases ctxs : primaryKey.ctx <;>
    simp [sameKey, key, archs, ctxs, Package.isMatch_wildcard, Package.isMatch_arch,
      Package.sameContext_iff, arch, and_assoc]

theorem findKey_eq_none_iff (primaryKey : LCFGPkgListPK) (xs : List Addr) (new : Addr) :
    findKey pkg primaryKey xs new = none ↔
      ∀ a ∈ xs, key primaryKey (pkg a) ≠ key primaryKey (pkg new) := by
  simp [findKey, ← sameKey_iff]

theorem findKey_spec {primaryKey : LCFGPkgListPK} {xs : List Addr} {new c : Addr}
    (found : findKey pkg primaryKey xs new = some c) :
    c ∈ xs ∧ key primaryKey (pkg c) = key primaryKey (pkg new) :=
  ⟨List.mem_of_find?_eq_some found,
    (sameKey_iff _ _ _).mp (List.find?_some (p := fun a => sameKey _ (pkg new) (pkg a)) found)⟩

/-! ### A run refines the merges on plain lists -/

/-- A state of the machine stands for a plain list, its key and rules being fixed. -/
structure Refines (pkg : Addr → LCFGPackage) (primaryKey : LCFGPkgListPK)
    (rules : LCFGMergeRule) (state : LCFGPackageList × DerivStore) (xs : List Addr) : Prop where
  wf : Wf pkg state.1
  items_eq : items state.1 = xs
  key_eq : state.1.primaryKey = primaryKey
  rules_eq : state.1.mergeRules = rules

theorem new_refines (pkg : Addr → LCFGPackage) (primaryKey : LCFGPkgListPK)
    (rules : LCFGMergeRule) (derivs : DerivStore) :
    Refines pkg primaryKey rules ({ new with primaryKey, mergeRules := rules }, derivs) [] :=
  ⟨new_wf pkg primaryKey rules, rfl, rfl, rfl⟩

theorem mergeStep_refines (vercmp : VersionOrder) {primaryKey : LCFGPkgListPK}
    {rules : LCFGMergeRule} (state : LCFGPackageList × DerivStore) (xs : List Addr)
    (call : MergeCall) (refines : Refines pkg primaryKey rules state xs) :
    Refines pkg primaryKey rules (mergeStep vercmp pkg state call)
      (stepItems vercmp pkg primaryKey rules xs call) := by
  obtain ⟨wf, rfl, rfl, rfl⟩ := refines
  cases hit : call.new.filter fun a => Package.isValid (pkg a) with
  | none =>
    simp only [mergeStep, mergePackage, stepItems, hit]
    exact ⟨wf, rfl, rfl, rfl⟩
  | some new =>
    obtain ⟨given, valid⟩ := Option.filter_eq_some_iff.mp hit
    obtain ⟨wf', same, key_eq, rules_eq⟩ :=
      mergePackage_spec vercmp state.2 state.1 new call.msg wf valid
    have stepped : mergeStep vercmp pkg state call =
        mergeStep vercmp pkg state ⟨some new, call.msg⟩ := by rw [mergeStep, given]; rfl
    simp only [stepItems, hit, ← same, stepped]
    exact ⟨wf', rfl, key_eq, rules_eq⟩

theorem runs_refine (vercmp : VersionOrder) (pkg : Addr → LCFGPackage)
    (primaryKey : LCFGPkgListPK) (rules : LCFGMergeRule) (derivs : DerivStore)
    (calls : List MergeCall) :
    Refines pkg primaryKey rules
      (run vercmp pkg ({ new with primaryKey, mergeRules := rules }, derivs) calls)
      (calls.foldl (stepItems vercmp pkg primaryKey rules) []) :=
  Run.simulation (mergeStep_refines vercmp) (new_refines pkg primaryKey rules derivs) calls

/-! ### Sample packages

Version 1.0 of a package, version 2.0 twice, version 1.0 with a pin and in
another spelling, and an addition of version 2.0. -/

def foo (pfx : PkgPrefix) (version : String) : LCFGPackage where
  name := some "foo"
  version := some version
  release := some "1"
  pfx := pfx

def sample : Addr → LCFGPackage
  | 0 => foo .none "1.0"
  | 1 => foo .none "2.0"
  | 2 => foo .none "2.0"
  | 3 => foo .pin "1.0"
  | 4 => foo .none "1.00"
  | 5 => foo .add "2.0"
  | _ => {}

def sampleRun (rules : LCFGMergeRule) (calls : List Addr) : LCFGPackageList × DerivStore :=
  run Version.debvercmp sample ({ new with mergeRules := rules }, fun _ => [])
    (calls.map fun a => ⟨some a, none⟩)

/-! ### One package for each key -/

/-- Only keeping everything leads to an addition beside a package with the same key. -/
theorem mergeAction_append (vercmp : VersionOrder) (pkg : Addr → LCFGPackage)
    {rules : LCFGMergeRule} (noKeepAll : rules.keepAll = false) (cur : Option Addr) (new : Addr)
    (appends : (mergeAction vercmp pkg rules cur new).appendNew = true) :
    cur = none ∨ (mergeAction vercmp pkg rules cur new).removeOld = true := by
  cases cur with
  | none => exact Or.inl rfl
  | some c =>
    right
    revert appends
    unfold mergeAction
    split
    · simp [MergeAction.keep]
    · split
      · unfold prefixAction
        cases (pkg new).pfx <;> grind [MergeAction.keep, MergeAction.swap]
      · grind [MergeAction.keep, MergeAction.swap]

/-- Without `LCFG_MERGE_RULE_KEEP_ALL` a merge removes the package with the key
of the new one before it appends. -/
theorem mergeItems_cases {rules : LCFGMergeRule} (noKeepAll : rules.keepAll = false)
    (primaryKey : LCFGPkgListPK) (xs : List Addr) (new : Addr) :
    let rest := xs.eraseP fun a => sameKey primaryKey (pkg new) (pkg a)
    let merged := (mergeItems vercmp pkg primaryKey rules xs new).1
    merged = xs ∨ merged = rest ∨ merged = rest ++ [new] := by
  intro rest merged
  have append := mergeAction_append vercmp pkg noKeepAll (findKey pkg primaryKey xs new) new
  simp only [merged, rest, mergeItems, applyItems]
  split
  · split
    next removal _ => exact Or.inr (Or.inr rfl)
    next => exact Or.inr (Or.inl rfl)
    next removal appends =>
      have absent : findKey pkg primaryKey xs new = none := by
        rcases append appends with none | removes
        · exact none
        · simpa [removes] using removal
      right
      right
      rw [List.eraseP_of_forall_not]
      exact List.find?_eq_none.mp absent
    next => exact Or.inl rfl
  · exact Or.inl rfl

def keys (pkg : Addr → LCFGPackage) (primaryKey : LCFGPkgListPK) (xs : List Addr) : List PkgKey :=
  xs.map fun a => key primaryKey (pkg a)

private theorem key_erased (primaryKey : LCFGPkgListPK) (xs : List Addr) (new : Addr)
    (unique : (keys pkg primaryKey xs).Nodup) :
    key primaryKey (pkg new) ∉
      keys pkg primaryKey (xs.eraseP fun a => sameKey primaryKey (pkg new) (pkg a)) := by
  induction xs with
  | nil => simp [keys]
  | cons a rest ih =>
    simp only [keys, List.map_cons, List.nodup_cons] at unique ih ⊢
    cases same : sameKey primaryKey (pkg new) (pkg a) with
    | true =>
      rw [List.eraseP_cons, same, cond_true, ← (sameKey_iff _ _ _).mp same]
      exact unique.1
    | false =>
      rw [List.eraseP_cons, same, cond_false, List.map_cons, List.mem_cons, not_or]
      refine ⟨fun equal => ?_, ih unique.2⟩
      simp [(sameKey_iff primaryKey (pkg new) (pkg a)).mpr equal.symm] at same

/-- A step of a run keeps the keys distinct. -/
theorem stepItems_unique {rules : LCFGMergeRule} (noKeepAll : rules.keepAll = false)
    (primaryKey : LCFGPkgListPK) (xs : List Addr) (call : MergeCall)
    (unique : (keys pkg primaryKey xs).Nodup) :
    (keys pkg primaryKey (stepItems vercmp pkg primaryKey rules xs call)).Nodup := by
  unfold stepItems
  split
  next => exact unique
  next new _ =>
    have erased : (keys pkg primaryKey
        (xs.eraseP fun a => sameKey primaryKey (pkg new) (pkg a))).Nodup :=
      unique.sublist (List.eraseP_sublist.map _)
    rcases mergeItems_cases noKeepAll primaryKey xs new with same | same | same <;> rw [same]
    · exact unique
    · exact erased
    · rw [keys, List.map_append, List.map_singleton]
      exact List.nodup_append.mpr ⟨erased, by simp, fun k member k' last equal => by
        rw [List.mem_singleton] at last
        exact key_erased primaryKey xs new unique (last ▸ equal ▸ member)⟩

theorem foldl_unique {rules : LCFGMergeRule} (noKeepAll : rules.keepAll = false)
    (primaryKey : LCFGPkgListPK) (calls : List MergeCall) :
    (keys pkg primaryKey (calls.foldl (stepItems vercmp pkg primaryKey rules) [])).Nodup :=
  Run.invariant (fun xs call unique _ => stepItems_unique noKeepAll primaryKey xs call unique)
    List.nodup_nil (Run.every_true _ _)

/-- No package of the list is equal to a later one. -/
def Distinct (vercmp : VersionOrder) (pkg : Addr → LCFGPackage) (xs : List Addr) : Prop :=
  xs.Pairwise fun a b => ¬Package.equals vercmp (pkg a) (pkg b) = true

/-- When some stored package is equal to the new one, so is the one that the
search finds. -/
def FindsEqual (vercmp : VersionOrder) (pkg : Addr → LCFGPackage) (primaryKey : LCFGPkgListPK)
    (xs : List Addr) (call : MergeCall) : Prop :=
  ∀ new ∈ call.new.filter fun a => Package.isValid (pkg a),
    (∃ a ∈ xs, Package.equals vercmp (pkg a) (pkg new) = true) →
      ∃ c ∈ findKey pkg primaryKey xs new, Package.equals vercmp (pkg c) (pkg new) = true

instance (vercmp : VersionOrder) (pkg : Addr → LCFGPackage) (xs : List Addr) :
    Decidable (Distinct vercmp pkg xs) :=
  inferInstanceAs (Decidable (List.Pairwise _ xs))

instance (vercmp : VersionOrder) (pkg : Addr → LCFGPackage) (primaryKey : LCFGPkgListPK)
    (xs : List Addr) (call : MergeCall) :
    Decidable (FindsEqual vercmp pkg primaryKey xs call) :=
  inferInstanceAs (Decidable (∀ new ∈ call.new.filter fun a => Package.isValid (pkg a),
    (∃ a ∈ xs, Package.equals vercmp (pkg a) (pkg new) = true) →
      ∃ c ∈ findKey pkg primaryKey xs new, Package.equals vercmp (pkg c) (pkg new) = true))

/-- The rules for keeping all packages which are not identical. -/
def squashOrKeep : LCFGMergeRule := { squashIdentical := true, keepAll := true }

theorem mergeItems_squashOrKeep (primaryKey : LCFGPkgListPK) (xs : List Addr)
    (new : Addr) :
    (mergeItems vercmp pkg primaryKey squashOrKeep xs new).1 =
      match findKey pkg primaryKey xs new with
      | none => xs ++ [new]
      | some c =>
        if c = new then xs
        else if Package.equals vercmp (pkg c) (pkg new) then
          xs.eraseP (fun a => sameKey primaryKey (pkg new) (pkg a)) ++ [new]
        else xs ++ [new] := by
  unfold mergeItems applyItems mergeAction
  cases found : findKey pkg primaryKey xs new with
  | none => simp [squashOrKeep, MergeAction.appendOnly]
  | some c =>
    by_cases same : c = new
    · simp [same, MergeAction.keep]
    · by_cases equal : Package.equals vercmp (pkg c) (pkg new) = true
      · simp [same, equal, squashOrKeep, MergeAction.swap]
      · simp [same, equal, squashOrKeep, MergeAction.appendOnly]

private theorem distinct_append (xs : List Addr) (new : Addr) :
    Distinct vercmp pkg (xs ++ [new]) ↔
      Distinct vercmp pkg xs ∧ ∀ a ∈ xs, ¬Package.equals vercmp (pkg a) (pkg new) = true := by
  simp [Distinct, List.pairwise_append]

/-- Putting a package in the place of one which is equal to it changes nothing. -/
private theorem distinct_swap (lawful : Equivalence fun a b => vercmp a b = 0)
    (same : Addr → Bool) (xs : List Addr) (c new : Addr) (found : xs.find? same = some c)
    (equal : Package.equals vercmp (pkg c) (pkg new) = true) :
    Distinct vercmp pkg (xs.eraseP same ++ [new]) ↔ Distinct vercmp pkg xs := by
  have equiv := Package.equals_equivalence lawful
  have symmetric {a b : Addr} : ¬Package.equals vercmp (pkg a) (pkg b) = true →
      ¬Package.equals vercmp (pkg b) (pkg a) = true := fun apart equal => apart (equiv.symm equal)
  obtain ⟨hit, before, after, rfl, no⟩ := List.find?_eq_some_iff_append.mp found
  have erased : (before ++ c :: after).eraseP same = before ++ after := by
    rw [List.eraseP_append_right _ fun b member => by simpa using no b member,
      List.eraseP_cons, hit, cond_true]
  have old : (before ++ c :: after).Perm (before ++ after ++ [c]) :=
    List.perm_middle.trans (List.perm_append_singleton c (before ++ after)).symm
  have moved : Distinct vercmp pkg (before ++ c :: after) ↔
      Distinct vercmp pkg (before ++ after ++ [c]) := old.pairwise_iff symmetric
  rw [erased, moved, distinct_append, distinct_append]
  have instead (a : Addr) : Package.equals vercmp (pkg a) (pkg new) = true ↔
      Package.equals vercmp (pkg a) (pkg c) = true :=
    ⟨fun e => equiv.trans e (equiv.symm equal), fun e => equiv.trans e equal⟩
  simp only [instead]

/-- A merge leaves no equal packages exactly if there were none and the search
finds the one to squash. -/
theorem stepItems_distinct_iff (lawful : Equivalence fun a b => vercmp a b = 0)
    (primaryKey : LCFGPkgListPK) (xs : List Addr) (call : MergeCall) :
    Distinct vercmp pkg (stepItems vercmp pkg primaryKey squashOrKeep xs call) ↔
      Distinct vercmp pkg xs ∧ FindsEqual vercmp pkg primaryKey xs call := by
  unfold stepItems FindsEqual
  cases call.new.filter fun a => Package.isValid (pkg a) with
  | none => simp
  | some new =>
    simp only [Option.mem_some_iff, forall_eq', mergeItems_squashOrKeep]
    cases found : findKey pkg primaryKey xs new with
    | none => simp [distinct_append]
    | some c =>
      by_cases same : c = new
      · have equal := (Package.equals_equivalence lawful).refl (pkg new)
        simp [same, equal]
      · by_cases equal : Package.equals vercmp (pkg c) (pkg new) = true
        · simp [same, equal, distinct_swap lawful _ xs c new found equal]
        · simp [same, equal, distinct_append]

/-- A run leaves no two equal packages exactly if the search of each merge finds
the stored package which is equal to the new one, wherever there is such a package. -/
theorem run_distinct_iff (vercmp : VersionOrder) (lawful : Equivalence fun a b => vercmp a b = 0)
    (pkg : Addr → LCFGPackage) (primaryKey : LCFGPkgListPK) (derivs : DerivStore)
    (calls : List MergeCall) :
    let start := ({ new with primaryKey, mergeRules := squashOrKeep }, derivs)
    Distinct vercmp pkg (items (run vercmp pkg start calls).1) ↔
      Run.Every (mergeStep vercmp pkg)
        (fun state call => FindsEqual vercmp pkg primaryKey (items state.1) call) start calls := by
  intro start
  rw [(runs_refine vercmp pkg primaryKey squashOrKeep derivs calls).items_eq,
    Run.invariant_iff (stepItems_distinct_iff lawful primaryKey),
    Run.every_simulation (mergeStep_refines vercmp) (fun state xs call refines => by
      rw [refines.items_eq]) (new_refines pkg primaryKey squashOrKeep derivs)]
  simp [Distinct]

/-- The identical package is squashed while it is the first one of its key. -/
theorem sample_distinct :
    Distinct Version.debvercmp sample (items (sampleRun squashOrKeep [1, 2, 0]).1) :=
  (run_distinct_iff _ Version.debvercmp_equivalence sample {} _ _).mpr (by decide)

/-- Behind another version it is found no more, and added a second time. -/
theorem sample_not_distinct :
    ¬Distinct Version.debvercmp sample (items (sampleRun squashOrKeep [0, 1, 2]).1) := by
  decide

/-! ### Pinned packages -/

/-- The rules of `lcfgpkglist_from_pkgsfile`. -/
def pkgsfileRules : LCFGMergeRule := { squashIdentical := true, usePrefix := true }

/-- The new package is not one without a prefix which another, pinned, package
with its key is equal to. -/
def SparesPin (vercmp : VersionOrder) (pkg : Addr → LCFGPackage) (primaryKey : LCFGPkgListPK)
    (xs : List Addr) (call : MergeCall) : Prop :=
  ∀ new ∈ call.new.filter fun a => Package.isValid (pkg a), (pkg new).pfx = .none →
    ∀ c ∈ findKey pkg primaryKey xs new, c ≠ new → (pkg c).pfx = .pin →
      Package.equals vercmp (pkg c) (pkg new) = false

instance (vercmp : VersionOrder) (pkg : Addr → LCFGPackage) (primaryKey : LCFGPkgListPK)
    (xs : List Addr) (call : MergeCall) :
    Decidable (SparesPin vercmp pkg primaryKey xs call) :=
  inferInstanceAs (Decidable (∀ new ∈ call.new.filter fun a => Package.isValid (pkg a),
    (pkg new).pfx = .none → ∀ c ∈ findKey pkg primaryKey xs new, c ≠ new →
      (pkg c).pfx = .pin → Package.equals vercmp (pkg c) (pkg new) = false))

/-- With distinct keys the search finds the package that has the key. -/
theorem findKey_of_mem {primaryKey : LCFGPkgListPK} {xs : List Addr} {a new : Addr}
    (unique : (keys pkg primaryKey xs).Nodup) (member : a ∈ xs)
    (same : key primaryKey (pkg a) = key primaryKey (pkg new)) :
    findKey pkg primaryKey xs new = some a := by
  cases found : findKey pkg primaryKey xs new with
  | none => exact absurd same ((findKey_eq_none_iff primaryKey xs new).mp found a member)
  | some c =>
    obtain ⟨stored, equal⟩ := findKey_spec found
    rw [List.inj_on_of_nodup_map unique stored member (equal.trans same.symm)]

/-- A pinned package is only ever replaced by an equal one without a prefix. -/
private theorem mergeAction_pinned {p new : Addr} (pin : (pkg p).pfx = .pin)
    (spares : (pkg new).pfx = .none → p ≠ new → Package.equals vercmp (pkg p) (pkg new) = false) :
    (mergeAction vercmp pkg pkgsfileRules (some p) new).accept = false ∨
      (mergeAction vercmp pkg pkgsfileRules (some p) new).removeOld = false := by
  by_cases same : p = new
  · simp [mergeAction, same, MergeAction.keep]
  · cases given : (pkg new).pfx with
    | none => simp [mergeAction, pkgsfileRules, same, given, spares given same]
    | _ => simp [mergeAction, prefixAction, pkgsfileRules, same, given, pin, MergeAction.keep,
        MergeAction.swap, apply_ite MergeAction.removeOld]

private theorem kept_mergeItems {primaryKey : LCFGPkgListPK} {rules : LCFGMergeRule}
    {xs : List Addr} {p new : Addr} (member : p ∈ xs)
    (stays : key primaryKey (pkg p) ≠ key primaryKey (pkg new) ∨
      (mergeAction vercmp pkg rules (findKey pkg primaryKey xs new) new).accept = false ∨
      (mergeAction vercmp pkg rules (findKey pkg primaryKey xs new) new).removeOld = false) :
    p ∈ (mergeItems vercmp pkg primaryKey rules xs new).1 := by
  unfold mergeItems applyItems
  rcases stays with other | rejected | keeps
  · have neg : ¬sameKey primaryKey (pkg new) (pkg p) = true := fun same =>
      other ((sameKey_iff _ _ _).mp same)
    have kept : p ∈ xs.eraseP fun a => sameKey primaryKey (pkg new) (pkg a) :=
      (List.mem_eraseP_of_neg (p := fun a => sameKey primaryKey (pkg new) (pkg a)) neg).mpr member
    split
    · split <;> simp [member, kept]
    · exact member
  · simp [rejected, member]
  · simp only [keeps, Bool.false_and]
    split
    · split <;> simp_all
    · exact member

/-- A merge keeps a pinned package, unless it has the key of an equal one without a prefix. -/
theorem stepItems_keeps_pin {primaryKey : LCFGPkgListPK} {xs : List Addr} {p : Addr}
    (pin : (pkg p).pfx = .pin) (unique : (keys pkg primaryKey xs).Nodup) (member : p ∈ xs)
    (call : MergeCall) (spares : SparesPin vercmp pkg primaryKey xs call) :
    p ∈ stepItems vercmp pkg primaryKey pkgsfileRules xs call := by
  unfold stepItems
  cases hit : call.new.filter fun a => Package.isValid (pkg a) with
  | none => exact member
  | some new =>
    refine kept_mergeItems member ?_
    by_cases same : key primaryKey (pkg p) = key primaryKey (pkg new)
    · have found := findKey_of_mem unique member same
      rw [found]
      exact Or.inr (mergeAction_pinned pin fun plain apart => spares new hit plain p found apart pin)
    · exact Or.inl same

/-- Once accepted, a package with the pin for its prefix is in the list. -/
private theorem accepted_pin_mem {primaryKey : LCFGPkgListPK} {xs : List Addr} {p : Addr}
    (pin : (pkg p).pfx = .pin)
    (accepted : (mergeItems vercmp pkg primaryKey pkgsfileRules xs p).2 ≠ .error) :
    p ∈ (mergeItems vercmp pkg primaryKey pkgsfileRules xs p).1 := by
  revert accepted
  unfold mergeItems applyItems mergeAction
  cases found : findKey pkg primaryKey xs p with
  | none => simp [pkgsfileRules, pin, prefixAction, MergeAction.swap]
  | some c =>
    by_cases same : c = p
    · simpa [same, MergeAction.keep] using same ▸ (findKey_spec found).1
    · by_cases pinned : (pkg c).pfx = .pin <;>
        simp [pkgsfileRules, pin, prefixAction, MergeAction.swap, same, pinned]

/-- Once a package with the prefix `!` is accepted, its key stays in the list with
its version and release, as long as no merge of an equal package without a prefix
takes the pin away. -/
theorem run_keeps_pin (vercmp : VersionOrder) (pkg : Addr → LCFGPackage)
    (primaryKey : LCFGPkgListPK) (derivs : DerivStore) (before : List MergeCall) (p : Addr)
    (msg : Option Message) (after : List MergeCall) (pin : (pkg p).pfx = .pin)
    (accepted :
      let start := ({ new with primaryKey, mergeRules := pkgsfileRules }, derivs)
      let state := run vercmp pkg start before
      (mergePackage vercmp pkg state.2 state.1 (some p) msg).change ≠ .error)
    (spares :
      let start := ({ new with primaryKey, mergeRules := pkgsfileRules }, derivs)
      Run.Every (mergeStep vercmp pkg)
        (fun state call => SparesPin vercmp pkg primaryKey (items state.1) call)
        (run vercmp pkg start (before ++ [⟨some p, msg⟩])) after) :
    let start := ({ new with primaryKey, mergeRules := pkgsfileRules }, derivs)
    let final := items (run vercmp pkg start (before ++ ⟨some p, msg⟩ :: after)).1
    (∃ a ∈ final, key primaryKey (pkg a) = key primaryKey (pkg p)) ∧
      ∀ a ∈ final, key primaryKey (pkg a) = key primaryKey (pkg p) →
        (pkg a).version = (pkg p).version ∧ (pkg a).release = (pkg p).release := by
  intro start final
  set xs := before.foldl (stepItems vercmp pkg primaryKey pkgsfileRules) []
  have reached : Refines pkg primaryKey pkgsfileRules (run vercmp pkg start before) xs :=
    runs_refine vercmp pkg primaryKey pkgsfileRules derivs before
  have pinned : Refines pkg primaryKey pkgsfileRules
      (run vercmp pkg start (before ++ [⟨some p, msg⟩]))
      (stepItems vercmp pkg primaryKey pkgsfileRules xs ⟨some p, msg⟩) := by
    simpa only [run, List.foldl_append, List.foldl_cons, List.foldl_nil] using mergeStep_refines vercmp _ _ ⟨some p, msg⟩ reached
  -- the merge of `p` puts it into the list
  have stored : p ∈ stepItems vercmp pkg primaryKey pkgsfileRules xs ⟨some p, msg⟩ := by
    cases valid : Package.isValid (pkg p) with
    | false =>
      have refused : (some p).filter (fun a => Package.isValid (pkg a)) = none := by simp [valid]
      simp only [mergePackage, refused] at accepted
      exact absurd rfl accepted
    | true =>
      obtain ⟨-, same, -, -⟩ := mergePackage_spec vercmp (run vercmp pkg start before).2
        (run vercmp pkg start before).1 p msg reached.wf valid
      rw [reached.items_eq, reached.key_eq, reached.rules_eq] at same
      simp only [stepItems, Option.filter_some, valid, if_true]
      exact accepted_pin_mem pin (same ▸ accepted)
  have unique : (keys pkg primaryKey
      (stepItems vercmp pkg primaryKey pkgsfileRules xs ⟨some p, msg⟩)).Nodup :=
    stepItems_unique rfl primaryKey xs _ (foldl_unique rfl primaryKey before)
  -- and every later one leaves it there
  obtain ⟨kept, unique'⟩ : p ∈ final ∧ (keys pkg primaryKey final).Nodup := by
    have whole := Run.simulation (mergeStep_refines vercmp) pinned after
    have same : final = after.foldl (stepItems vercmp pkg primaryKey pkgsfileRules)
        (stepItems vercmp pkg primaryKey pkgsfileRules xs ⟨some p, msg⟩) := by
      rw [← whole.items_eq]
      simp only [final, run, List.foldl_append, List.foldl_cons, List.foldl_nil]
    rw [same]
    refine Run.invariant (P := fun xs => p ∈ xs ∧ (keys pkg primaryKey xs).Nodup)
      (fun xs call inv ok => ⟨stepItems_keeps_pin pin inv.2 inv.1 call ok,
        stepItems_unique rfl primaryKey xs call inv.2⟩) ⟨stored, unique⟩ ?_
    exact (Run.every_simulation (mergeStep_refines vercmp) (fun state xs call refines => by
      rw [refines.items_eq]) pinned after).mp spares
  refine ⟨⟨p, kept, rfl⟩, fun a member same => ?_⟩
  rw [List.inj_on_of_nodup_map unique' member kept same]
  exact ⟨rfl, rfl⟩

theorem sample_keeps_pin :
    let final := items (sampleRun pkgsfileRules [0, 3, 5, 1]).1
    (∃ a ∈ final, key {} (sample a) = key {} (sample 3)) ∧
      ∀ a ∈ final, key {} (sample a) = key {} (sample 3) →
        (sample a).version = (sample 3).version ∧ (sample a).release = (sample 3).release :=
  run_keeps_pin Version.debvercmp sample {} (fun _ => []) [⟨some 0, none⟩] 3 none
    [⟨some 5, none⟩, ⟨some 1, none⟩] rfl (by decide) (by decide)

/-- Version 1.00 counts as identical to the pinned version 1.0 and takes its
place, and then nothing protects the package from an addition. -/
theorem sample_loses_pin :
    let accepted := mergePackage Version.debvercmp sample (fun _ => [])
      { new with mergeRules := pkgsfileRules } (some 3) none
    let final := items (sampleRun pkgsfileRules [3, 4, 5]).1
    accepted.change ≠ .error ∧
      ¬((∃ a ∈ final, key {} (sample a) = key {} (sample 3)) ∧
        ∀ a ∈ final, key {} (sample a) = key {} (sample 3) →
          (sample a).version = (sample 3).version ∧ (sample a).release = (sample 3).release) := by
  decide

end Lcfg.PkgList
