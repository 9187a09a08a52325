import LcfgCore.Library.QSort

/-!
# Output in sorted order

What is written for the entries of a list, one after another, up to the first one which
cannot be written. Two sorted lists of the same entries differ in the order of entries
which compare equal; this is where what is written may differ.

## Main results

`all_eq_iff_groups`: sorted lists give the same output if and only if what compares equal
does, as far as it is reached. `forall_sorts_eq_iff`: this holds for all results of a sort
if and only if what compares equal gives the same output in any order. `all_eq_of_perm` and
`commute_of_perm`: it does so if and only if any two outputs commute.
-/

/-- The text which is written, and whether all of it was. -/
structure Output (α : Type) where
  text : List α
  ok : Bool
deriving DecidableEq

namespace Output

variable {α β : Type}

def done : Output α := ⟨[], true⟩

def written (text : List α) : Output α := ⟨text, true⟩

/-- The second output follows the first, unless that has failed. -/
def andThen (first second : Output α) : Output α :=
  if first.ok then ⟨first.text ++ second.text, second.ok⟩ else first

def all (outputs : List (Output α)) : Output α := outputs.foldr andThen done

@[simp] theorem all_nil : all ([] : List (Output α)) = done := rfl

@[simp] theorem all_cons (first : Output α) (rest : List (Output α)) :
    all (first :: rest) = first.andThen (all rest) := rfl

theorem andThen_ok {first : Output α} (ok : first.ok = true) (second : Output α) :
    first.andThen second = ⟨first.text ++ second.text, second.ok⟩ := if_pos ok

theorem written_andThen (text : List α) (second : Output α) :
    (written text).andThen second = ⟨text ++ second.text, second.ok⟩ := rfl

theorem andThen_failed {first : Output α} (failed : ¬ first.ok = true) (second : Output α) :
    first.andThen second = first := if_neg failed

theorem andThen_assoc (first second third : Output α) :
    (first.andThen second).andThen third = first.andThen (second.andThen third) := by
  by_cases ok : first.ok = true
  · by_cases ok' : second.ok = true
    · simp [andThen, ok, ok', List.append_assoc]
    · simp [andThen, ok, ok']
  · simp [andThen, ok]

theorem all_append (first second : List (Output α)) :
    all (first ++ second) = (all first).andThen (all second) := by
  induction first with
  | nil => rfl
  | cons output rest ih => rw [List.cons_append, all_cons, all_cons, ih, andThen_assoc]

theorem andThen_ok_iff (first second : Output α) :
    (first.andThen second).ok = true ↔ first.ok = true ∧ second.ok = true := by
  by_cases ok : first.ok = true <;> simp [andThen, ok]

theorem all_ok_iff (outputs : List (Output α)) :
    (all outputs).ok = true ↔ ∀ output ∈ outputs, output.ok = true := by
  induction outputs with
  | nil => simp [done]
  | cons first rest ih => rw [all_cons, andThen_ok_iff, ih, List.forall_mem_cons]

/-- Without a failure all texts are written. -/
theorem all_text {outputs : List (Output α)} (ok : ∀ output ∈ outputs, output.ok = true) :
    (all outputs).text = (outputs.map text).flatten := by
  induction outputs with
  | nil => rfl
  | cons first rest ih =>
    rw [List.forall_mem_cons] at ok
    rw [all_cons, andThen_ok ok.1, ih ok.2, List.map_cons, List.flatten_cons]

/-- The length does not depend on the order. -/
theorem all_length_eq {outputs outputs' : List (Output α)} (perm : outputs.Perm outputs')
    (ok : ∀ output ∈ outputs, output.ok = true) :
    (all outputs).text.length = (all outputs').text.length := by
  have ok' : ∀ output ∈ outputs', output.ok = true := fun output member =>
    ok output (perm.mem_iff.mpr member)
  rw [all_text ok, all_text ok']
  exact (perm.map text).flatten.length_eq

theorem all_ok_of_perm {outputs outputs' : List (Output α)} (perm : outputs.Perm outputs') :
    (all outputs).ok = (all outputs').ok := by
  rw [Bool.eq_iff_iff, all_ok_iff, all_ok_iff]
  simp only [perm.mem_iff]

/-- Outputs of one length can be told apart from what follows. -/
theorem andThen_inj {first first' second second' : Output α} (sameOk : first.ok = first'.ok)
    (sameLength : first.ok = true → first.text.length = first'.text.length) :
    first.andThen second = first'.andThen second' ↔
      first = first' ∧ (first.ok = true → second = second') := by
  by_cases ok : first.ok = true
  · have ok' : first'.ok = true := sameOk ▸ ok
    rw [andThen_ok ok, andThen_ok ok']
    constructor
    · intro same
      injection same with texts oks
      obtain ⟨sameFirst, sameSecond⟩ := List.append_inj texts (sameLength ok)
      refine ⟨?_, fun _ => ?_⟩
      · cases first
        cases first'
        simp_all
      · cases second
        cases second'
        simp_all
    · rintro ⟨rfl, rest⟩
      rw [rest ok]
  · have failed' : ¬ first'.ok = true := sameOk ▸ ok
    rw [andThen_failed ok, andThen_failed failed']
    simp [ok]

/-! ## Sorted lists -/

section Sorted

variable {cmp : β → β → Int} (preorder : QSort.Preorder cmp)
include preorder

/-- A list which begins with `p` begins with all that compares equal to it. -/
private theorem split_group {p : β} {list : List β} (least : ∀ x ∈ list, cmp p x ≤ 0)
    (sorted : list.Pairwise fun x y => cmp x y ≤ 0) :
    list = list.filter (fun x => decide (cmp x p ≤ 0)) ++
      list.filter fun x => !decide (cmp x p ≤ 0) := by
  induction list with
  | nil => rfl
  | cons x rest ih =>
    rw [List.forall_mem_cons] at least
    rw [List.pairwise_cons] at sorted
    have later := ih least.2 sorted.2
    by_cases tied : cmp x p ≤ 0
    · simp only [List.filter_cons, tied, decide_true, if_true, Bool.not_true, Bool.false_eq_true,
        if_false, List.cons_append, List.cons.injEq, true_and]
      exact later
    · -- nothing after `x` compares equal to `p`
      have none_ : ∀ y ∈ x :: rest, ¬ cmp y p ≤ 0 := by
        rintro y (_ | ⟨_, member⟩)
        · exact tied
        · exact fun le => tied (preorder.trans x y p (sorted.1 y member) le)
      rw [List.filter_eq_nil_iff.mpr fun y member => by simpa using none_ y member,
        List.filter_eq_self.mpr fun y member => by simpa using none_ y member, List.nil_append]

/-- What is written for the entries which compare equal to `p`. -/
def group (cmp : β → β → Int) (write : β → Output α) (list : List β) (p : β) : Output α :=
  all ((list.filter fun x => decide (cmp x p = 0)).map write)

omit preorder in
/-- Everything which compares less can be written. -/
def Reached (cmp : β → β → Int) (write : β → Output α) (list : List β) (p : β) : Prop :=
  ∀ q ∈ list, cmp q p < 0 → (write q).ok = true

private theorem group_congr (write : β → Output α) (list : List β) {p q : β}
    (tied : cmp p q = 0) : group cmp write list p = group cmp write list q := by
  have same : (fun x => decide (cmp x p = 0)) = fun x => decide (cmp x q = 0) := by
    funext x
    rw [decide_eq_decide, preorder.tied_iff tied x]
  rw [group, group, same]

/-- What does not compare equal to `p` is in another group than `p`. -/
private theorem group_filter (write : β → Output α) (list : List β) {p q : β}
    (greater : ¬ cmp q p ≤ 0) : group cmp write (list.filter fun x => !decide (cmp x p ≤ 0)) q =
      group cmp write list q := by
  rw [group, group, List.filter_filter]
  congr 3
  funext x
  by_cases tied : cmp x q = 0
  · have other : ¬ cmp x p ≤ 0 := fun le =>
      greater (preorder.trans q x p ((preorder.eq_zero_iff x q).mp tied).2 le)
    simp [tied, other]
  · simp [tied]

private theorem reached_iff (write : β → Output α) (list : List β) {p q : β}
    (greater : ¬ cmp q p ≤ 0) : Reached cmp write list q ↔
      (all ((list.filter fun x => decide (cmp x p ≤ 0)).map write)).ok = true ∧
        Reached cmp write (list.filter fun x => !decide (cmp x p ≤ 0)) q := by
  have less : ∀ x, cmp x p ≤ 0 → cmp x q < 0 := by
    intro x le
    by_contra more
    exact greater (preorder.trans q x p ((preorder.swap x q).mpr (not_lt.mp more)) le)
  rw [all_ok_iff]
  constructor
  · intro reached
    refine ⟨fun output member => ?_, fun x member => reached x (List.mem_of_mem_filter member)⟩
    obtain ⟨x, inGroup, rfl⟩ := List.mem_map.mp member
    obtain ⟨inList, le⟩ := List.mem_filter.mp inGroup
    exact reached x inList (less x (of_decide_eq_true le))
  · rintro ⟨first, later⟩ x member smaller
    by_cases le : cmp x p ≤ 0
    · exact first _ (List.mem_map_of_mem (List.mem_filter.mpr ⟨member, decide_eq_true le⟩))
    · exact later x (List.mem_filter.mpr ⟨member, by simpa using le⟩) smaller

/-- Each entry of one list compares equal to one of the other, and the two groups have the
same length. -/
structure Balanced (cmp : β → β → Int) (write : β → Output α) (list list' : List β) : Prop where
  covered : ∀ q ∈ list', ∃ p ∈ list, cmp p q = 0
  sameOk : ∀ p ∈ list, (group cmp write list p).ok = (group cmp write list' p).ok
  sameLength : ∀ p ∈ list, (group cmp write list p).ok = true →
    (group cmp write list p).text.length = (group cmp write list' p).text.length

omit preorder in
theorem group_ok_of_perm {list list' : List β} (perm : list.Perm list') (write : β → Output α)
    (p : β) : (group cmp write list p).ok = (group cmp write list' p).ok :=
  all_ok_of_perm ((perm.filter _).map write)

omit preorder in
theorem group_length_of_perm {list list' : List β} (perm : list.Perm list')
    {write : β → Output α} {p : β} (ok : (group cmp write list p).ok = true) :
    (group cmp write list p).text.length = (group cmp write list' p).text.length :=
  all_length_eq ((perm.filter _).map write) ((all_ok_iff _).mp ok)

omit preorder in
theorem Balanced.of_perm {write : β → Output α} {list list' sorted sorted' : List β}
    (balanced : Balanced cmp write list list') (perm : sorted.Perm list)
    (perm' : sorted'.Perm list') : Balanced cmp write sorted sorted' := by
  refine ⟨fun q member => ?_, fun p member => ?_, fun p member ok => ?_⟩
  · obtain ⟨p, inList, tied⟩ := balanced.covered q (perm'.mem_iff.mp member)
    exact ⟨p, perm.mem_iff.mpr inList, tied⟩
  · rw [group_ok_of_perm perm, group_ok_of_perm perm', balanced.sameOk p (perm.mem_iff.mp member)]
  · have inList := perm.mem_iff.mp member
    have written : (group cmp write list p).ok = true := by
      rwa [← group_ok_of_perm perm]
    have written' : (group cmp write list' p).ok = true := by
      rwa [← balanced.sameOk p inList]
    rw [group_length_of_perm perm ok, balanced.sameLength p inList written,
      group_length_of_perm perm'.symm written']

/-- The same entries in another order. -/
theorem balanced_of_perm {list list' : List β} (perm : list.Perm list') (write : β → Output α) :
    Balanced cmp write list list' :=
  ⟨fun q member => ⟨q, perm.mem_iff.mpr member, preorder.self q⟩,
    fun p _ => group_ok_of_perm perm write p, fun _ _ ok => group_length_of_perm perm ok⟩

/-- Two sorted lists with groups of the same lengths give the same output if and only if the
groups which are reached do. -/
theorem all_eq_iff_groups (write : β → Output α) (n : Nat) (list list' : List β)
    (few : list.length ≤ n) (balanced : Balanced cmp write list list')
    (sorted : list.Pairwise fun x y => cmp x y ≤ 0)
    (sorted' : list'.Pairwise fun x y => cmp x y ≤ 0) :
    all (list.map write) = all (list'.map write) ↔
      ∀ p ∈ list, Reached cmp write list p → group cmp write list p = group cmp write list' p := by
  induction n generalizing list list' with
  | zero =>
    obtain rfl := List.eq_nil_of_length_eq_zero (Nat.le_zero.mp few)
    have none_ : list' = [] := List.eq_nil_iff_forall_not_mem.mpr fun q member => by
      obtain ⟨p, absent, -⟩ := balanced.covered q member
      cases absent
    rw [none_]
    simp
  | succ n ih =>
    cases list with
    | nil =>
      have none_ : list' = [] := List.eq_nil_iff_forall_not_mem.mpr fun q member => by
        obtain ⟨p, absent, -⟩ := balanced.covered q member
        cases absent
      rw [none_]
      simp
    | cons p tail =>
      have least : ∀ x ∈ p :: tail, cmp p x ≤ 0 := by
        rintro x (_ | ⟨_, member⟩)
        · exact preorder.refl p
        · exact (List.pairwise_cons.mp sorted).1 x member
      have least' : ∀ x ∈ list', cmp p x ≤ 0 := fun x member => by
        obtain ⟨q, inList, tied⟩ := balanced.covered x member
        exact preorder.trans p q x (least q inList) tied.le
      generalize whole : p :: tail = list at *
      have here : p ∈ list := whole ▸ List.mem_cons_self
      -- the group of `p`, and the rest
      have shown {l : List β} (least : ∀ x ∈ l, cmp p x ≤ 0) :
          group cmp write l p = all ((l.filter fun x => decide (cmp x p ≤ 0)).map write) := by
        rw [group]
        congr 2
        refine List.filter_congr fun x member => ?_
        rw [decide_eq_decide, preorder.eq_zero_iff]
        exact ⟨fun both => both.1, fun le => ⟨le, least x member⟩⟩
      have fewer : (list.filter fun x => !decide (cmp x p ≤ 0)).length ≤ n := by
        have less : (list.filter fun x => !decide (cmp x p ≤ 0)).length < list.length :=
          List.length_filter_lt_length_iff_exists.mpr ⟨p, here, by simp [preorder.refl p]⟩
        omega
      have balancedRest : Balanced cmp write (list.filter fun x => !decide (cmp x p ≤ 0))
          (list'.filter fun x => !decide (cmp x p ≤ 0)) := by
        refine ⟨fun q member => ?_, fun q member => ?_, fun q member => ?_⟩
        · obtain ⟨inList, other⟩ := List.mem_filter.mp member
          obtain ⟨x, inX, tied⟩ := balanced.covered q inList
          refine ⟨x, List.mem_filter.mpr ⟨inX, ?_⟩, tied⟩
          rw [Bool.not_eq_true', decide_eq_false_iff_not] at other ⊢
          exact fun le => other (preorder.trans q x p (preorder.symm tied).le le)
        all_goals
          obtain ⟨inList, other⟩ := List.mem_filter.mp member
          rw [Bool.not_eq_true', decide_eq_false_iff_not] at other
          rw [group_filter preorder write list other, group_filter preorder write list' other]
        · exact balanced.sameOk q inList
        · exact balanced.sameLength q inList
      have rest := ih _ _ fewer balancedRest (sorted.filter _) (sorted'.filter _)
      have split := congrArg (List.map write) (split_group preorder least sorted)
      have split' := congrArg (List.map write) (split_group preorder least' sorted')
      rw [split, split', List.map_append, List.map_append, all_append, all_append,
        ← shown least, ← shown least',
        andThen_inj (balanced.sameOk p here) (balanced.sameLength p here), rest]
      constructor
      · rintro ⟨first, later⟩ q inList reached
        by_cases le : cmp q p ≤ 0
        · have tied : cmp q p = 0 := (preorder.eq_zero_iff q p).mpr ⟨le, least q inList⟩
          rw [group_congr preorder write list tied, group_congr preorder write list' tied, first]
        · rw [reached_iff preorder write list le, ← shown least] at reached
          have same := later reached.1 q (List.mem_filter.mpr ⟨inList, by simpa using le⟩) reached.2
          rwa [group_filter preorder write list le, group_filter preorder write list' le] at same
      · intro agree
        refine ⟨agree p here fun q inList less => ?_, fun ok q inRest reached => ?_⟩
        · have more := (preorder.swap q p).mp (least q inList)
          omega
        · obtain ⟨inList, other⟩ := List.mem_filter.mp inRest
          rw [Bool.not_eq_true', decide_eq_false_iff_not] at other
          rw [group_filter preorder write list other, group_filter preorder write list' other]
          refine agree q inList ((reached_iff preorder write list other).mpr ⟨?_, reached⟩)
          rwa [← shown least]

/-! ### All results of a sort -/

omit preorder in
/-- The entries which compare equal to `p`. -/
def tiedTo (cmp : β → β → Int) (list : List β) (p : β) : List β :=
  list.filter fun x => decide (cmp x p = 0)

/-- All results of a sort give the same output if and only if, as far as they are reached,
the entries which compare equal do so in any order. -/
theorem forall_sorts_eq_iff {write : β → Output α} {list list' : List β}
    (balanced : Balanced cmp write list list') :
    (∀ sorted sorted', QSort.Sorts cmp list sorted → QSort.Sorts cmp list' sorted' →
      all (sorted.map write) = all (sorted'.map write)) ↔
      ∀ p ∈ list, Reached cmp write list p →
        ∀ order order' : List β, order.Perm (tiedTo cmp list p) → order'.Perm (tiedTo cmp list' p) →
          all (order.map write) = all (order'.map write) := by
  have groups {sorted sorted' : List β} (sorts : QSort.Sorts cmp list sorted)
      (sorts' : QSort.Sorts cmp list' sorted') :
      all (sorted.map write) = all (sorted'.map write) ↔
        ∀ p ∈ sorted, Reached cmp write sorted p →
          group cmp write sorted p = group cmp write sorted' p := by
    exact all_eq_iff_groups preorder write _ sorted sorted' le_rfl
      (balanced.of_perm sorts.perm sorts'.perm) sorts.ordered sorts'.ordered
  constructor
  · intro same p member reached order order' perm perm'
    obtain ⟨sorted, sorts, rfl⟩ := preorder.exists_arranged perm
    obtain ⟨sorted', sorts', rfl⟩ := preorder.exists_arranged perm'
    exact (groups sorts sorts').mp (same _ _ sorts sorts') p (sorts.perm.mem_iff.mpr member)
      fun q inList => reached q (sorts.perm.mem_iff.mp inList)
  · intro same sorted sorted' sorts sorts'
    rw [groups sorts sorts']
    intro p member reached
    exact same p (sorts.perm.mem_iff.mp member)
      (fun q inList => reached q (sorts.perm.mem_iff.mpr inList)) _ _
      (sorts.perm.filter _) (sorts'.perm.filter _)

end Sorted

/-! ## Outputs which commute -/


/-- Outputs which commute may stand in any order. -/
theorem all_eq_of_perm {outputs outputs' : List (Output α)} (perm : outputs.Perm outputs')
    (commute : ∀ a ∈ outputs, ∀ b ∈ outputs, a.andThen b = b.andThen a) :
    all outputs = all outputs' := by
  induction perm with
  | nil => rfl
  | cons first _ ih =>
    rw [all_cons, all_cons, ih fun a here b there =>
      commute a (List.mem_cons_of_mem _ here) b (List.mem_cons_of_mem _ there)]
  | swap b a rest =>
    rw [all_cons, all_cons, all_cons, all_cons, ← andThen_assoc, ← andThen_assoc,
      commute a (by simp) b (by simp)]
  | trans perm₁ _ ih₁ ih₂ =>
    rw [ih₁ commute]
    exact ih₂ fun a here b there =>
      commute a (perm₁.mem_iff.mpr here) b (perm₁.mem_iff.mpr there)

/-- Outputs of outputs, one after another. -/
theorem all_flatMap (list : List β) (parts : β → List (Output α)) :
    all (list.map fun x => all (parts x)) = all (list.flatMap parts) := by
  induction list with
  | nil => rfl
  | cons x rest ih => rw [List.map_cons, all_cons, ih, List.flatMap_cons, all_append]

/-- The same output in all orders: any two entries commute. -/
theorem commute_of_perm {write : β → Output α} {list : List β}
    (same : ∀ order : List β, order.Perm list → all (order.map write) = all (list.map write)) :
    ∀ a ∈ list, ∀ b ∈ list, (write a).andThen (write b) = (write b).andThen (write a) := by
  classical
  intro a inA b inB
  by_cases equal : b = a
  · rw [equal]
  obtain ⟨left, right, rfl⟩ := List.append_of_mem inA
  have inRest : b ∈ left ++ right := by simpa [equal] using inB
  obtain ⟨left', right', whole⟩ := List.append_of_mem inRest
  have moved : (a :: b :: (left' ++ right')).Perm (left ++ a :: right) := by
    refine List.Perm.trans ?_ List.perm_middle.symm
    rw [whole]
    exact (List.perm_middle.symm).cons a
  have straight := same _ moved
  have crossed := same _ ((List.Perm.swap a b _).trans moved)
  rw [← straight] at crossed
  simp only [List.map_cons, all_cons, ← andThen_assoc] at crossed
  -- the two outputs have the same length in either order
  have pairOk : ((write b).andThen (write a)).ok = ((write a).andThen (write b)).ok := by
    rw [Bool.eq_iff_iff, andThen_ok_iff, andThen_ok_iff, and_comm]
  refine (((andThen_inj pairOk fun ok => ?_).mp crossed).1).symm
  obtain ⟨okB, okA⟩ := (andThen_ok_iff _ _).mp ok
  rw [andThen_ok okB, andThen_ok okA, List.length_append, List.length_append, Nat.add_comm]

end Output
