import LcfgCore.DerivationStore
import Mathlib.Data.Set.Lattice
import Mathlib.Order.ConditionallyCompleteLattice.Basic

/-!
# The content of a derivation list

A list of derivations stands for a set of files and a set of lines of files. All
merges are unions of these, and report truly whether there was anything to add.
-/
namespace Lcfg

/-- Files, and lines of files. -/
abbrev DerivContent := Set String × Set (String × Nat)

namespace DerivList

def content (drvlist : LCFGDerivationList) : DerivContent :=
  ({file | ∃ drv ∈ drvlist, drv.file = some file},
    {line | ∃ drv ∈ drvlist, drv.file = some line.1 ∧ line.2 ∈ drv.lines})

variable {drvlist : LCFGDerivationList} {drv : LCFGDerivation}

@[simp] theorem content_nil : content [] = ⊥ := by
  simp [content, Prod.ext_iff]

theorem content_append (drvlist1 drvlist2 : LCFGDerivationList) :
    content (drvlist1 ++ drvlist2) = content drvlist1 ⊔ content drvlist2 := by
  refine Prod.ext (Set.ext fun file => ?_) (Set.ext fun line => ?_)
  · simp only [content, List.mem_append, or_and_right, exists_or, Set.mem_ofPred_eq, Prod.fst_sup,
      Set.sup_eq_union, Set.mem_union]
  · simp only [content, List.mem_append, or_and_right, exists_or, Set.mem_ofPred_eq, Prod.snd_sup,
      Set.sup_eq_union, Set.mem_union]

theorem content_cons (drv : LCFGDerivation) (drvlist : LCFGDerivationList) :
    content (drv :: drvlist) = content [drv] ⊔ content drvlist :=
  content_append [drv] drvlist

theorem content_perm {drvlist' : LCFGDerivationList} (perm : drvlist.Perm drvlist') :
    content drvlist = content drvlist' := by
  simp only [content, perm.mem_iff]

/-- An entry and the others. -/
theorem content_entry {i : Nat} (inside : i < drvlist.length) :
    content drvlist = content [drvlist[i]] ⊔ content (drvlist.eraseIdx i) := by
  rw [← content_cons]
  exact content_perm (List.getElem_cons_eraseIdx_perm inside).symm

theorem content_set {i : Nat} (inside : i < drvlist.length) (drv : LCFGDerivation) :
    content (drvlist.set i drv) = content [drv] ⊔ content (drvlist.eraseIdx i) := by
  rw [← content_cons]
  refine content_perm ?_
  have place : i < (drvlist.set i drv).length := by rwa [List.length_set]
  have perm := List.getElem_cons_eraseIdx_perm place
  rw [List.getElem_set_self, List.eraseIdx_set_eq] at perm
  exact perm.symm

/-- The lines which are merged into an entry are those of the entry then. -/
theorem content_mergeLines {drv1 drv2 : LCFGDerivation} (same : drv1.file = drv2.file) :
    content [(Derivation.mergeLines drv1 drv2).1] = content [drv1] ⊔ content [drv2] := by
  obtain ⟨file, lines, -⟩ := Derivation.mergeLines_spec drv1 drv2
  refine Prod.ext (Set.ext fun other => ?_) (Set.ext fun line => ?_)
  · simp [content, file, same]
  · simp [content, file, same, lines, and_or_left]

/-! ### Merging a derivation -/

/-- A derivation is appended, or merged into the entry for its file. -/
theorem mergeDerivation_cases (wf : WellFormed drvlist) (valid : Derivation.isValid drv = true) :
    drv.file ∉ drvlist.map (·.file) ∧
        mergeDerivation drvlist drv = (drvlist ++ [drv], .added) ∨
      ∃ i, ∃ inside : i < drvlist.length, drvlist[i].file = drv.file ∧
        mergeDerivation drvlist drv = (drvlist.set i (Derivation.mergeLines drvlist[i] drv).1,
          (Derivation.mergeLines drvlist[i] drv).2) := by
  have same {d : LCFGDerivation} (there : Derivation.isValid d = true) :
      Derivation.matchFile d (orDefault drv.file "") = true ↔ d.file = drv.file := by
    rw [Derivation.matchFile, beq_iff_eq, Derivation.file_of_valid there,
      Derivation.file_of_valid valid, Option.some_inj]
    simp
  unfold mergeDerivation
  rw [valid, Bool.not_true, if_neg Bool.false_ne_true]
  simp only
  split
  case h_1 absent =>
    refine .inl ⟨fun old => ?_, rfl⟩
    obtain ⟨d, member, file⟩ := List.mem_map.mp old
    have other := List.findIdx?_eq_none_iff.mp absent d member
    have there := (wf.entries d member).file
    rw [there, Bool.true_and, (same there).mpr file] at other
    cases other
  case h_2 i found =>
    obtain ⟨inside, accepted, -⟩ := List.findIdx?_eq_some_iff_getElem.mp found
    rw [Bool.and_eq_true] at accepted
    refine .inr ⟨i, inside, (same accepted.1).mp accepted.2, ?_⟩
    simp [List.getD_eq_getElem?_getD, inside]

/-- The lines of a file are those of its one entry. -/
theorem content_entry_le_iff (wf : WellFormed drvlist) {i : Nat} (inside : i < drvlist.length)
    (same : drvlist[i].file = drv.file) :
    content [drv] ≤ content drvlist ↔ drv.lines ⊆ drvlist[i].lines := by
  have member := List.getElem_mem inside
  obtain ⟨file, given, -⟩ := (wf.entries _ member).file_eq
  constructor
  · rintro ⟨-, sub⟩ line isLine
    have there : (file, line) ∈ (content drvlist).2 :=
      sub ⟨drv, List.mem_singleton_self _, by rw [← same, given], isLine⟩
    obtain ⟨d, old, sameFile, known⟩ := there
    have entry : d = drvlist[i] :=
      List.inj_on_of_nodup_map wf.files old member (by rw [sameFile, given])
    rwa [entry] at known
  · intro sub
    refine ⟨?_, ?_⟩
    · rintro other ⟨d, isDrv, isFile⟩
      rw [List.mem_singleton.mp isDrv, ← same] at isFile
      exact ⟨_, member, isFile⟩
    · rintro line ⟨d, isDrv, isFile, isLine⟩
      rw [List.mem_singleton.mp isDrv] at isFile isLine
      exact ⟨_, member, by rw [same, isFile], sub isLine⟩

theorem content_new_not_le (valid : Derivation.isValid drv = true)
    (new : drv.file ∉ drvlist.map (·.file)) : ¬ content [drv] ≤ content drvlist := by
  rintro ⟨sub, -⟩
  have file := Derivation.file_of_valid valid
  obtain ⟨d, member, same⟩ := sub ⟨drv, List.mem_singleton_self _, file⟩
  apply new
  rw [file, ← same]
  exact List.mem_map_of_mem member

/-- The effect and the report of a merge which adds `added` to a list. -/
structure Adds (drvlist : LCFGDerivationList) (added : DerivContent)
    (r : LCFGDerivationList × LCFGChange) : Prop where
  wf : WellFormed r.1
  content_eq : content r.1 = content drvlist ⊔ added
  ok : r.2 ≠ .error
  none_iff : r.2 = .none ↔ content drvlist ⊔ added = content drvlist
  kept : r.2 = .none → r.1 = drvlist

theorem Adds.nothing (wf : WellFormed drvlist) : Adds drvlist ⊥ (drvlist, .none) :=
  ⟨wf, by simp, by simp, by simp, fun _ => rfl⟩

theorem mergeDerivation_adds (wf : WellFormed drvlist) (entry : Derivation.WellFormed drv) :
    Adds drvlist (content [drv]) (mergeDerivation drvlist drv) := by
  obtain ⟨new, appended⟩ | ⟨i, inside, same, merged⟩ := mergeDerivation_cases wf entry.file
  -- the file is new: its entry is appended
  · rw [appended]
    refine ⟨⟨?_, ?_⟩, content_append _ _, by simp, ?_, by simp⟩
    · intro d member
      rcases List.mem_append.mp member with old | last
      · exact wf.entries d old
      · rwa [List.mem_singleton.mp last]
    · rw [List.map_append]
      refine List.nodup_append.mpr ⟨wf.files, by simp, fun a old b last equal => new ?_⟩
      rw [List.map_singleton, List.mem_singleton] at last
      rw [← last, ← equal]
      exact old
    · simp only [reduceCtorEq, false_iff, sup_eq_left]
      exact content_new_not_le entry.file new
  -- the file has an entry, which gets the lines
  · rw [merged]
    obtain ⟨file, lines, report⟩ := Derivation.mergeLines_spec drvlist[i] drv
    refine ⟨⟨?_, ?_⟩, ?_, ?_, ?_, ?_⟩
    · intro d member
      rcases List.mem_or_eq_of_mem_set member with old | rfl
      · exact wf.entries d old
      · exact (wf.entries _ (List.getElem_mem inside)).mergeLines entry
    · rw [List.map_set, file]
      have place : i < (drvlist.map (·.file)).length := by rwa [List.length_map]
      have own : drvlist[i].file = (drvlist.map (·.file))[i] := by rw [List.getElem_map]
      rw [own, List.set_getElem_self place]
      exact wf.files
    · rw [content_set inside, content_mergeLines same, content_entry inside]
      exact sup_right_comm _ _ _
    · obtain ⟨-, same⟩ | ⟨-, modified⟩ := report
      · simp [same]
      · simp [modified]
    · rw [sup_eq_left, content_entry_le_iff wf inside same]
      obtain ⟨sub, same⟩ | ⟨more, modified⟩ := report
      · simp [same, sub]
      · simp [modified, more]
    · obtain ⟨-, same⟩ | ⟨-, modified⟩ := report
      · simp [same]
      · simp [modified]

/-- It does not matter what an addition is called. -/
private theorem Adds.relabel {added : DerivContent} {r : LCFGDerivationList × LCFGChange}
    (adds : Adds drvlist added r) :
    Adds drvlist added (r.1, if r.2 = .modified then .added else r.2) := by
  obtain ⟨wf, content_eq, ok, none_iff, kept⟩ := adds
  obtain ⟨merged, change⟩ := r
  refine ⟨wf, content_eq, ?_, ?_, ?_⟩
  all_goals cases change <;> simp_all

/-- A line of a file is merged like a derivation with this line alone, but reported as
an addition in either case. -/
private theorem mergeFileLine_eq {filename : Option String} (some_ : isEmpty filename = false)
    (line : Int32) :
    let r := mergeDerivation drvlist ⟨filename, if 0 ≤ line.toInt then [line.toInt.toNat] else []⟩
    mergeFileLine drvlist filename line = (r.1, if r.2 = .modified then .added else r.2) := by
  have valid : ∀ lines, Derivation.isValid ⟨filename, lines⟩ = true := fun lines => by
    rw [Derivation.isValid, some_, Bool.not_false]
  unfold mergeFileLine mergeDerivation
  simp only [some_, valid, Bool.not_true, Bool.false_eq_true, if_false]
  cases found : drvlist.findIdx? (fun drv =>
      Derivation.isValid drv && Derivation.matchFile drv (orDefault filename "")) with
  | none => rfl
  | some i =>
    obtain ⟨inside, -, -⟩ := List.findIdx?_eq_some_iff_getElem.mp found
    dsimp only
    split
    · rw [StoredDerivation.mergeLines_eq, List.foldl_cons, List.foldl_nil, StoredDerivation.addLine,
        Derivation.mergeLine]
      split <;> rfl
    · rw [StoredDerivation.mergeLines_eq, List.foldl_nil]
      simp [List.getD_eq_getElem?_getD, inside]

theorem mergeFileLine_adds (wf : WellFormed drvlist) {filename : Option String}
    (some_ : isEmpty filename = false) (line : Int32) :
    Adds drvlist (content [⟨filename, if 0 ≤ line.toInt then [line.toInt.toNat] else []⟩])
      (mergeFileLine drvlist filename line) := by
  have small : line.toInt.toNat < 2 ^ 32 := by
    have bound := line.toInt_lt
    omega
  have entry : Derivation.WellFormed
      ⟨filename, if 0 ≤ line.toInt then [line.toInt.toNat] else []⟩ := by
    refine ⟨by rw [Derivation.isValid, some_, Bool.not_false], ?_, fun other member => ?_⟩
    · split <;> simp
    · dsimp only at member
      split at member
      · rwa [List.mem_singleton.mp member]
      · cases member
  rw [mergeFileLine_eq some_]
  exact (mergeDerivation_adds wf entry).relabel

/-! ### Merging lists -/

/-- Run lemma: the entries of the second list are added one after the other. -/
private theorem mergeEntries_adds (wf : WellFormed drvlist) (change : LCFGChange) (ok : change ≠ .error)
    (drvlist2 : LCFGDerivationList) (wf2 : ∀ drv ∈ drvlist2, Derivation.WellFormed drv) :
    let r := drvlist2.foldl mergeEntry (drvlist, change)
    WellFormed r.1 ∧ content r.1 = content drvlist ⊔ content drvlist2 ∧
      (content drvlist2 ≤ content drvlist ∧ r = (drvlist, change) ∨
        ¬ content drvlist2 ≤ content drvlist ∧ r.2 = .modified) := by
  induction drvlist2 generalizing drvlist change with
  | nil => exact ⟨wf, by simp, .inl ⟨by simp, rfl⟩⟩
  | cons drv drvlist2 ih =>
    have entry := wf2 drv List.mem_cons_self
    have later := fun other member => wf2 other (List.mem_cons_of_mem drv member)
    obtain ⟨wf', content_eq, fine, none_iff, kept⟩ := mergeDerivation_adds wf entry
    rw [List.foldl_cons, content_cons, sup_le_iff]
    -- what is there already changes nothing, and the report is that of the entries before
    by_cases old : content [drv] ≤ content drvlist
    · have nothing := none_iff.mpr (sup_eq_left.mpr old)
      have same : mergeEntry (drvlist, change) drv = (drvlist, change) := by
        have merged : mergeDerivation drvlist drv = (drvlist, .none) :=
          Prod.ext (kept nothing) nothing
        simp [mergeEntry, merged]
      rw [same, and_iff_right old, ← sup_assoc, sup_eq_left.mpr old]
      exact ih wf change ok later
    -- otherwise the report is a change from here on
    · have some_ : (mergeDerivation drvlist drv).2 ≠ .none := fun nothing =>
        old (sup_eq_left.mp (none_iff.mp nothing))
      have step : mergeEntry (drvlist, change) drv =
          ((mergeDerivation drvlist drv).1, .modified) := by
        rw [mergeEntry, if_neg (by simp [ok, entry.file])]
        cases report : mergeDerivation drvlist drv with
        | mk merged reported => cases reported <;> simp_all
      obtain ⟨wf'', content_eq', report⟩ := ih wf' .modified (by decide) later
      rw [step]
      refine ⟨wf'', by rw [content_eq', content_eq, sup_assoc], .inr ⟨fun sub => old sub.1, ?_⟩⟩
      obtain ⟨-, same⟩ | ⟨-, modified⟩ := report
      · rw [same]
      · exact modified

theorem mergeList_adds (wf : WellFormed drvlist) {drvlist2 : LCFGDerivationList}
    (wf2 : ∀ drv ∈ drvlist2, Derivation.WellFormed drv) :
    Adds drvlist (content drvlist2) (mergeList drvlist drvlist2) := by
  obtain ⟨wf', content_eq, report⟩ := mergeEntries_adds wf .none (by decide) drvlist2 wf2
  rw [mergeList_eq]
  refine ⟨wf', content_eq, ?_, ?_, ?_⟩
  all_goals obtain ⟨sub, same⟩ | ⟨more, modified⟩ := report
  · simp [same]
  · simp [modified]
  · simp [same, sub]
  · simp [modified, more]
  · simp [same]
  · simp [modified]

theorem mergeList_self (wf : WellFormed drvlist) : mergeList drvlist drvlist = (drvlist, .none) := by
  have added := mergeList_adds wf wf.entries
  have nothing := added.none_iff.mpr (sup_idem _)
  exact Prod.ext (added.kept nothing) nothing

/-! ### Texts -/

private theorem parseLines_wellFormed {fuel : Nat} {read : LCFGDerivation} {start : List Char}
    (distinct : drv.lines.Nodup) (small : ∀ line ∈ drv.lines, line < 2 ^ 32)
    (done : Derivation.parseLines fuel drv start = .ok read) :
    read.lines.Nodup ∧ ∀ line ∈ read.lines, line < 2 ^ 32 := by
  induction fuel generalizing drv start with
  | zero =>
    cases done
    exact ⟨distinct, small⟩
  | succ fuel ih =>
    rw [Derivation.parseLines] at done
    split at done
    · cases done
      exact ⟨distinct, small⟩
    · split at done
      · cases done
      case h_2 line rest _ =>
        obtain ⟨distinct', small'⟩ :=
          Derivation.mergeLine_wellFormed distinct small (Nat.mod_lt line (by decide : 0 < 2 ^ 32))
        exact ih distinct' small' done

theorem derivationFromString_wellFormed {token : List Char}
    (done : Derivation.fromString token = .ok drv) (valid : Derivation.isValid drv = true) :
    Derivation.WellFormed drv := by
  have lines : drv.lines.Nodup ∧ ∀ line ∈ drv.lines, line < 2 ^ 32 := by
    unfold Derivation.fromString at done
    simp only at done
    split at done
    · cases done
    · split at done
      · unfold Except.map at done
        split at done
        · cases done
        case h_2 parsed =>
          have none_ : ∀ line ∈ ({} : LCFGDerivation).lines, line < 2 ^ 32 := by simp
          have read := parseLines_wellFormed List.nodup_nil none_ parsed
          cases done
          exact read
      · cases done
        exact ⟨List.nodup_nil, by simp⟩
  exact ⟨valid, lines.1, lines.2⟩

theorem fromString_wellFormed {input : List Char} (done : fromString input = .ok drvlist) :
    WellFormed drvlist := by
  have all : ∀ (tokens : List (List Char)) (start : LCFGDerivationList), WellFormed start →
      tokens.foldlM addToken start = .ok drvlist → WellFormed drvlist := by
    intro tokens
    induction tokens with
    | nil =>
      intro start wf done
      cases done
      exact wf
    | cons token tokens ih =>
      intro start wf done
      rw [List.foldlM_cons] at done
      cases added : addToken start token with
      | error => simp [added, bind, Except.bind] at done
      | ok next =>
        obtain ⟨drv, parsed, valid, rfl⟩ := addToken_ok added
        rw [added] at done
        exact ih _ (mergeDerivation_adds wf (derivationFromString_wellFormed parsed valid)).wf done
  unfold fromString at done
  simp only at done
  split at done
  · cases done
  · exact all _ [] ⟨by simp, by simp⟩ done

end DerivList
end Lcfg
