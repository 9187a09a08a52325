import LcfgCore.Library.QSort
import Mathlib.Data.List.Pairwise

/-!
# Keeping the best of each key

A list holds one element for each key. An element which is offered takes the place of the
holder of its key if it compares greater, and goes to the end.

## Main results

`foldl_holds`: of all elements offered the list holds a greatest one for each key.
`Holds.mem_iff`: where no two of a key compare equal, these are the elements which are held.
`Holds.tied`: in whatever order they are offered, the holders of a key compare equal.
-/
namespace KeepBest

variable {α κ : Type} (key : α → κ) (cmp : α → α → Int)

def offer [DecidableEq κ] (held : List α) (new : α) : List α :=
  match held.find? fun a => key a = key new with
  | none => held ++ [new]
  | some cur => if cmp new cur > 0 then held.eraseP (fun a => key a = key new) ++ [new] else held

/-- What is held once all of `seen` has been offered. -/
structure Holds (seen held : List α) : Prop where
  unique : (held.map key).Nodup
  among : ∀ a ∈ held, a ∈ seen
  best : ∀ b ∈ seen, ∃ a ∈ held, key a = key b ∧ cmp b a ≤ 0

variable {key cmp}

theorem holds_nil : Holds key cmp [] [] := ⟨List.nodup_nil, by simp, by simp⟩

theorem unique_append {held : List α} {new : α} (unique : (held.map key).Nodup)
    (free : ∀ a ∈ held, key a ≠ key new) : ((held ++ [new]).map key).Nodup := by
  rw [List.map_append, List.map_singleton]
  refine unique.append (List.nodup_singleton _) ?_
  rw [List.disjoint_singleton]
  intro member
  obtain ⟨a, held, same⟩ := List.mem_map.mp member
  exact free a held same

/-- The holders of a key compare equal, in whatever order the elements were offered. -/
theorem Holds.tied {seen seen' held held' : List α} (holds : Holds key cmp seen held)
    (holds' : Holds key cmp seen' held') (perm : seen.Perm seen') (preorder : QSort.Preorder cmp)
    {a b : α} (inHeld : a ∈ held) (inHeld' : b ∈ held') (same : key a = key b) : cmp a b = 0 := by
  have le {seen seen' held held' : List α} (holds : Holds key cmp seen held)
      (holds' : Holds key cmp seen' held') (perm : seen.Perm seen') {a b : α}
      (inHeld : a ∈ held) (inHeld' : b ∈ held') (same : key a = key b) : cmp a b ≤ 0 := by
    obtain ⟨c, inC, sameC, le⟩ := holds'.best a (perm.mem_iff.mp (holds.among a inHeld))
    rwa [List.inj_on_of_nodup_map holds'.unique inC inHeld' (sameC.trans same)] at le
  exact (preorder.eq_zero_iff a b).mpr
    ⟨le holds holds' perm inHeld inHeld' same, le holds' holds perm.symm inHeld' inHeld same.symm⟩

/-- Where no two elements with the same key compare equal the greatest ones are held. -/
theorem Holds.mem_iff {seen held : List α} (holds : Holds key cmp seen held)
    (preorder : QSort.Preorder cmp)
    (distinct : seen.Pairwise fun a b => key a = key b → cmp a b ≠ 0) (a : α) :
    a ∈ held ↔ a ∈ seen ∧ ∀ b ∈ seen, key b = key a → cmp b a ≤ 0 := by
  constructor
  · intro member
    refine ⟨holds.among a member, fun b inSeen same => ?_⟩
    obtain ⟨c, inHeld, sameC, le⟩ := holds.best b inSeen
    rwa [List.inj_on_of_nodup_map holds.unique inHeld member (sameC.trans same)] at le
  · rintro ⟨member, greatest⟩
    obtain ⟨c, inHeld, same, le⟩ := holds.best a member
    have inSeen := holds.among c inHeld
    -- the holder of the key compares equal, so it is the same element
    have equal : c = a := by
      by_contra other
      have tied := (preorder.eq_zero_iff c a).mpr ⟨greatest c inSeen same, le⟩
      have : Std.Symm fun a b => key a = key b → cmp a b ≠ 0 :=
        ⟨fun a b differ same tied => differ same.symm
          ((preorder.eq_zero_iff a b).mpr ((preorder.eq_zero_iff b a).mp tied).symm)⟩
      exact List.Pairwise.forall distinct inSeen member other same tied
    exact equal ▸ inHeld

variable [DecidableEq κ]

/-- The key comes free where its holder is taken out. -/
theorem key_erased {held : List α} (unique : (held.map key).Nodup) (new : α) :
    ∀ a ∈ held.eraseP (fun a => key a = key new), key a ≠ key new := by
  induction held with
  | nil => simp
  | cons first rest ih =>
    rw [List.map_cons, List.nodup_cons] at unique
    by_cases here : key first = key new
    · simp only [List.eraseP_cons, here, decide_true, cond_true]
      intro a member same
      exact unique.1 (here.trans same.symm ▸ List.mem_map_of_mem member)
    · simp only [List.eraseP_cons, here, decide_false, cond_false, List.mem_cons, forall_eq_or_imp]
      exact ⟨here, ih unique.2⟩

variable (preorder : QSort.Preorder cmp)
include preorder

theorem Holds.offer {seen held : List α} (holds : Holds key cmp seen held) (new : α) :
    Holds key cmp (seen ++ [new]) (KeepBest.offer key cmp held new) := by
  unfold KeepBest.offer
  cases found : held.find? fun a => key a = key new with
  | none =>
    have free : ∀ a ∈ held, key a ≠ key new := by simpa using found
    refine ⟨unique_append holds.unique free, fun a member => ?_, fun b member => ?_⟩
    · rw [List.mem_append] at member ⊢
      exact member.imp_left (holds.among a)
    · rcases List.mem_append.mp member with old | fresh
      · obtain ⟨a, inHeld, same, le⟩ := holds.best b old
        exact ⟨a, List.mem_append_left _ inHeld, same, le⟩
      · obtain rfl := List.mem_singleton.mp fresh
        exact ⟨b, List.mem_append_right _ fresh, rfl, preorder.refl b⟩
  | some cur =>
    have here := List.mem_of_find?_eq_some found
    have same : key cur = key new := by simpa using List.find?_some found
    -- the holder of a key is the only element with it
    have only (a : α) (member : a ∈ held) (sameKey : key a = key new) : a = cur :=
      List.inj_on_of_nodup_map holds.unique member here (sameKey.trans same.symm)
    dsimp only
    split
    case isTrue greater =>
      have erased := key_erased holds.unique new
      refine ⟨unique_append (holds.unique.sublist (List.eraseP_sublist.map key)) erased,
        fun a member => ?_, fun b member => ?_⟩
      · rw [List.mem_append] at member ⊢
        exact member.imp_left fun old => holds.among a (List.mem_of_mem_eraseP old)
      · rcases List.mem_append.mp member with old | fresh
        · obtain ⟨a, inHeld, sameKey, le⟩ := holds.best b old
          by_cases replaced : key a = key new
          · have back := (preorder.swap cur new).mpr
            obtain rfl := only a inHeld replaced
            refine ⟨new, by simp, replaced.symm.trans sameKey, preorder.trans b a new le ?_⟩
            exact (preorder.swap new a).mpr (by omega)
          · refine ⟨a, List.mem_append_left _ ?_, sameKey, le⟩
            exact (List.mem_eraseP_of_neg (by simpa using replaced)).mpr inHeld
        · obtain rfl := List.mem_singleton.mp fresh
          exact ⟨b, List.mem_append_right _ fresh, rfl, preorder.refl b⟩
    case isFalse small =>
      refine ⟨holds.unique, fun a member => List.mem_append_left _ (holds.among a member),
        fun b member => ?_⟩
      rcases List.mem_append.mp member with old | fresh
      · exact holds.best b old
      · obtain rfl := List.mem_singleton.mp fresh
        exact ⟨cur, here, same, not_lt.mp small⟩

/-- Of all elements a greatest one is held for each key. -/
theorem foldl_holds (list : List α) : Holds key cmp list (list.foldl (KeepBest.offer key cmp) []) := by
  have whole (seen held list : List α) (holds : Holds key cmp seen held) :
      Holds key cmp (seen ++ list) (list.foldl (KeepBest.offer key cmp) held) := by
    induction list generalizing seen held with
    | nil => simpa using holds
    | cons new rest ih =>
      have next := ih _ _ (holds.offer preorder new)
      rwa [List.append_assoc] at next
  exact whole [] [] list holds_nil

end KeepBest
