import LcfgCore.DerivationLength
import LcfgCore.DerivationRuns

/-!
# Runs with cached lengths

The lists of shared derivations once more, with the lengths which are kept with their
derivations: any number of lists which are cloned, merged, measured and written in any
order, and derivations in them which are written to directly.

## Main results

`toString_spec`: a list is as long as `lcfgderivlist_get_string_length` says.
`run_lengths`: after any run this holds of each list, and no length is stale.
`erase_sharedStep`: without the lengths clones and merges are those of `DerivationRuns`.
-/
namespace Lcfg
namespace DerivList

open Outcome (Ends)
open CachedDerivation (Fresh newlineText)

abbrev CachedHeap := RefCount.Heap CachedDerivation

namespace Cached

variable (heap : CachedHeap) (nodes : List Addr)

/-- The derivations which a list shows. -/
def visible : LCFGDerivationList := nodes.map fun a => (heap.cell a).toLCFGDerivation

def findNode (wantFile : String) : Option Nat :=
  (visible heap nodes).findIdx? fun drv =>
    Derivation.isValid drv && Derivation.matchFile drv wantFile

def keepClone (i : Nat) (clone : Addr) (change : LCFGChange) : CachedHeap × List Addr :=
  if change.isOk && change ≠ .none then
    (RefCount.relinquish {} heap (nodes.getD i 0), nodes.set i clone)
  else (RefCount.relinquish {} heap clone, nodes)

/-- Writes to the entry at a position, or to a clone of it if it is shared. -/
def modifyEntry (i : Nat)
    (merge : CachedDerivation → Except OutOfBounds (CachedDerivation × LCFGChange)) :
    Except OutOfBounds (CachedHeap × List Addr × LCFGChange) :=
  let curDrv := nodes.getD i 0
  if !RefCount.isShared heap curDrv then do
    let (drv, change) ← merge (heap.cell curDrv)
    .ok (RefCount.write heap curDrv drv, nodes, change)
  else do
    let copy ← CachedDerivation.clone (heap.cell curDrv).toLCFGDerivation
    let (clone, heap) := RefCount.alloc heap copy
    let (drv, change) ← merge copy
    let (heap, nodes) := keepClone (RefCount.write heap clone drv) nodes i clone change
    .ok (heap, nodes, change)

/-- `lcfgderivlist_merge_derivation` -/
def mergeDerivation (newDrv : Addr) : Except OutOfBounds (CachedHeap × List Addr × LCFGChange) :=
  let new := (heap.cell newDrv).toLCFGDerivation
  if !Derivation.isValid new then .ok (heap, nodes, .error)
  else
    match findNode heap nodes (orDefault new.file "") with
    | none => .ok (RefCount.acquire heap newDrv, nodes ++ [newDrv], .added)
    | some i =>
      if nodes.getD i 0 = newDrv then .ok (heap, nodes, .none)
      else modifyEntry heap nodes i fun drv => drv.mergeLines new

/-- A derivation of the caller, who gives up the reference after the merge. -/
def mergeNew (drv : CachedDerivation) : Except OutOfBounds (CachedHeap × List Addr × LCFGChange) :=
  let (a, heap) := RefCount.alloc heap drv
  do
    let (heap, nodes, change) ← mergeDerivation heap nodes a
    .ok (RefCount.relinquish {} heap a, nodes, change)

/-- `lcfgderivlist_merge_file_line` -/
def mergeFileLine (filename : Option String) (line : Int32) :
    Except OutOfBounds (CachedHeap × List Addr × LCFGChange) :=
  if isEmpty filename then .ok (heap, nodes, .none)
  else
    match findNode heap nodes (orDefault filename "") with
    | none => do
      let (drv, change) ← CachedDerivation.ofFileLine filename line
      let (a, heap) := RefCount.alloc heap drv
      if change.isOk then
        .ok (RefCount.relinquish {} (RefCount.acquire heap a) a, nodes ++ [a], .added)
      else .ok (RefCount.relinquish {} heap a, nodes, change)
    | some i =>
      if 0 ≤ line.toInt then
        if Derivation.hasLine (heap.cell (nodes.getD i 0)).toLCFGDerivation line.toInt.toNat then
          .ok (heap, nodes, .none)
        else modifyEntry heap nodes i fun drv => drv.mergeLine line.toInt.toNat
      else .ok (heap, nodes, .none)

def mergeEach (heap : CachedHeap) (nodes : List Addr) (change : LCFGChange) :
    List Addr → Except OutOfBounds (CachedHeap × List Addr × LCFGChange)
  | [] => .ok (heap, nodes, change)
  | drv :: rest =>
    if !change.isOk then .ok (heap, nodes, change)
    else if !Derivation.isValid (heap.cell drv).toLCFGDerivation then
      mergeEach heap nodes change rest
    else do
      let (heap, nodes, mergeRc) ← mergeDerivation heap nodes drv
      mergeEach heap nodes
        (if mergeRc = .error then .error else if mergeRc ≠ .none then .modified else change) rest

/-- `lcfgderivlist_merge_list` -/
def mergeList (nodes2 : List Addr) : Except OutOfBounds (CachedHeap × List Addr × LCFGChange) :=
  mergeEach heap nodes .none nodes2

/-- `lcfgderivlist_clone` shares all the entries. -/
def acquireAll : CachedHeap := nodes.foldl RefCount.acquire heap

/-- `lcfgderivlist_destroy` -/
def relinquishAll : CachedHeap := nodes.foldl (RefCount.relinquish {}) heap

def addTokens (heap : CachedHeap) (nodes : List Addr) :
    List (List Char) → Except OutOfBounds (CachedHeap × Except String (List Addr))
  | [] => .ok (heap, .ok nodes)
  | token :: tokens => do
    match ← CachedDerivation.fromString token with
    | .error parseMsg =>
      .ok (relinquishAll heap nodes, .error
        ("Failed to parse derivation '" ++ String.ofList token ++ "': " ++ parseMsg))
    | .ok drv =>
      let (heap, nodes, change) ← mergeNew heap nodes drv
      if change = .error then
        .ok (relinquishAll heap nodes,
          .error ("Failed to add derivation '" ++ String.ofList token ++ "' to list"))
      else addTokens heap nodes tokens

/-- `lcfgderivlist_from_string`: a new list. -/
def fromString (input : List Char) : Except OutOfBounds (CachedHeap × Except String (List Addr)) :=
  let input := input.dropWhile isSpace
  if input = [] then .ok (heap, .error "Invalid derivation string")
  else addTokens heap [] (Fields.tokens isDelimiter input)

/-- `lcfgderivlist_merge_string_list` -/
def mergeStringList (input : List Char) :
    Except OutOfBounds (CachedHeap × List Addr × LCFGChange) := do
  match ← fromString heap input with
  | (heap, .error _) => .ok (heap, nodes, .error)
  | (heap, .ok extra) =>
    let (heap, nodes, change) ← mergeList heap nodes extra
    .ok (relinquishAll heap extra, nodes, change)

/-! ### Measuring and writing -/

/-- The loop of `lcfgderivlist_get_string_length`. -/
def addLengths (heap : CachedHeap) (length : Nat) : List Addr → CachedHeap × Nat
  | [] => (heap, length)
  | a :: rest =>
    let (drv, drvlen) := (heap.cell a).getLength
    addLengths (RefCount.write heap a drv)
      (if 0 < drvlen then length + (drvlen.toNat + 1) else length) rest

/-- `lcfgderivlist_get_string_length`, where a blank is counted for each derivation. -/
def getStringLength : CachedHeap × Nat :=
  let (heap, length) := addLengths heap 0 nodes
  (heap, if 0 < length then length - 1 else length)

/-- The loop of `lcfgderivlist_to_string`. The text of a derivation is written to a part of
the buffer, which must not be too small for it. -/
def writeEach (heap : CachedHeap) (first : Bool) (text : List Char) :
    List Addr → Except LengthFault (CachedHeap × List Char)
  | [] => .ok (heap, text)
  | a :: rest =>
    if !Derivation.isValid (heap.cell a).toLCFGDerivation then writeEach heap first text rest
    else
      let (drv, drvLen) := (heap.cell a).sortLines.getLength
      let heap := RefCount.write heap a drv
      if 0 < drvLen then do
        let text := if first then text else text ++ [' ']
        let size := drvLen.toNat + 1
        if size < drv.getLength.2.toNat + 1 then .error .badRealloc
        else
          let (drv, piece) ← drv.toString false
          writeEach (RefCount.write heap a drv) false (text ++ piece.getD []) rest
      else writeEach heap first text rest

/-- `lcfgderivlist_to_string`: the text ends where the length says. -/
def toString (newline : Bool) : Except LengthFault (CachedHeap × List Char) := do
  let (heap, length) := getStringLength heap nodes
  let newLen := length + (newlineText newline).length
  let (heap, text) ← writeEach heap true [] nodes
  if (text ++ newlineText newline).length = newLen then .ok (heap, text ++ newlineText newline)
  else .error .assertion

/-! ## No length is stale -/

def AllFresh (heap : CachedHeap) : Prop := ∀ a, Fresh (heap.cell a)

section Heap

variable {heap : CachedHeap} {drv : CachedDerivation}

theorem AllFresh.write (all : AllFresh heap) (a : Addr) (fresh : Fresh drv) :
    AllFresh (RefCount.write heap a drv) := by
  intro b
  by_cases same : b = a
  · subst same
    simpa [RefCount.write] using fresh
  · simpa [RefCount.write, same] using all b

theorem AllFresh.alloc (all : AllFresh heap) (fresh : Fresh drv) :
    AllFresh (RefCount.alloc heap drv).2 :=
  all.write heap.fresh fresh

theorem AllFresh.acquire (all : AllFresh heap) (a : Addr) : AllFresh (RefCount.acquire heap a) :=
  all

theorem AllFresh.relinquish (all : AllFresh heap) (a : Addr) :
    AllFresh (RefCount.relinquish {} heap a) := by
  rw [RefCount.relinquish]
  split
  · exact all.write a CachedDerivation.fresh_new
  · exact all

theorem AllFresh.acquireAll (all : AllFresh heap) (nodes : List Addr) :
    AllFresh (acquireAll heap nodes) := by
  rw [Cached.acquireAll]
  induction nodes generalizing heap with
  | nil => exact all
  | cons a nodes ih => exact ih (all.acquire a)

theorem AllFresh.relinquishAll (all : AllFresh heap) (nodes : List Addr) :
    AllFresh (relinquishAll heap nodes) := by
  rw [Cached.relinquishAll]
  induction nodes generalizing heap with
  | nil => exact all
  | cons a nodes ih => exact ih (all.relinquish a)

end Heap

section Merges

variable {heap : CachedHeap} {nodes : List Addr}

private theorem AllFresh.keepClone (all : AllFresh heap) (i : Nat) (clone : Addr)
    (change : LCFGChange) : AllFresh (keepClone heap nodes i clone change).1 := by
  rw [Cached.keepClone]
  split
  · exact all.relinquish _
  · exact all.relinquish _

theorem AllFresh.modifyEntry (all : AllFresh heap) (i : Nat)
    {merge : CachedDerivation → Except OutOfBounds (CachedDerivation × LCFGChange)}
    (keeps : ∀ drv, Fresh drv → Ends (fun _ => True) (merge drv) fun r => Fresh r.1) :
    Ends (fun _ => True) (modifyEntry heap nodes i merge) fun r => AllFresh r.1 := by
  rw [Cached.modifyEntry]
  split
  · exact (keeps _ (all _)).bind fun r fresh => .pure (all.write _ fresh)
  · refine (CachedDerivation.clone_spec _).bind fun copy fresh => ?_
    refine (keeps copy fresh).bind fun r fresh' => ?_
    exact .pure (((all.alloc fresh).write _ fresh').keepClone _ _ _)

theorem AllFresh.mergeDerivation (all : AllFresh heap) (newDrv : Addr) :
    Ends (fun _ => True) (mergeDerivation heap nodes newDrv) fun r => AllFresh r.1 := by
  rw [Cached.mergeDerivation]
  split
  · exact .pure all
  split
  · exact .pure (all.acquire newDrv)
  split
  · exact .pure all
  · exact all.modifyEntry _ fun drv fresh => fresh.mergeLines_spec _

theorem AllFresh.mergeNew (all : AllFresh heap) {drv : CachedDerivation} (fresh : Fresh drv) :
    Ends (fun _ => True) (mergeNew heap nodes drv) fun r => AllFresh r.1 :=
  ((all.alloc fresh).mergeDerivation _).bind fun _ good => .pure (good.relinquish _)

theorem AllFresh.mergeFileLine (all : AllFresh heap) (filename : Option String) (line : Int32) :
    Ends (fun _ => True) (mergeFileLine heap nodes filename line) fun r => AllFresh r.1 := by
  rw [Cached.mergeFileLine]
  split
  · exact .pure all
  -- a new entry is only kept if the file name was accepted
  split
  · refine (CachedDerivation.ofFileLine_spec filename line).bind fun r fresh => ?_
    simp only
    split
    · exact .pure (((all.alloc fresh).acquire _).relinquish _)
    · exact .pure ((all.alloc fresh).relinquish _)
  split
  · split
    · exact .pure all
    · exact all.modifyEntry _ fun drv fresh => fresh.mergeLine_spec _
  · exact .pure all

theorem AllFresh.mergeEach (all : AllFresh heap) (change : LCFGChange) (rest : List Addr) :
    Ends (fun _ => True) (mergeEach heap nodes change rest) fun r => AllFresh r.1 := by
  induction rest generalizing heap nodes change with
  | nil => exact .pure all
  | cons drv rest ih =>
    rw [Cached.mergeEach]
    split
    · exact .pure all
    split
    · exact ih all change
    · exact (all.mergeDerivation drv).bind fun r good => ih good _

theorem AllFresh.addTokens (all : AllFresh heap) (tokens : List (List Char)) :
    Ends (fun _ => True) (addTokens heap nodes tokens) fun r => AllFresh r.1 := by
  induction tokens generalizing heap nodes with
  | nil => exact .pure all
  | cons token tokens ih =>
    rw [Cached.addTokens]
    refine (CachedDerivation.fromString_fresh token).bind fun parsed fresh => ?_
    cases parsed with
    | error parseMsg => exact .pure (all.relinquishAll nodes)
    | ok drv =>
      refine (all.mergeNew (fresh drv rfl)).bind fun r good => ?_
      simp only
      split
      · exact .pure (good.relinquishAll _)
      · exact ih good

theorem AllFresh.fromString (all : AllFresh heap) (input : List Char) :
    Ends (fun _ => True) (fromString heap input) fun r => AllFresh r.1 := by
  rw [Cached.fromString]
  split
  · exact .pure all
  · exact all.addTokens _

theorem AllFresh.mergeStringList (all : AllFresh heap) (input : List Char) :
    Ends (fun _ => True) (mergeStringList heap nodes input) fun r => AllFresh r.1 := by
  rw [Cached.mergeStringList]
  refine (all.fromString input).bind fun r good => ?_
  obtain ⟨heap', parsed⟩ := r
  cases parsed with
  | error => exact .pure good
  | ok extra => exact (good.mergeEach .none extra).bind fun r' good' => .pure (good'.relinquishAll _)

end Merges

/-! ## The text is as long as the list says -/

/-- The texts of the derivations with a file. -/
def pieces (drvlist : LCFGDerivationList) : List (List Char) :=
  ((sortLines drvlist).filter Derivation.isValid).map Derivation.toString

theorem toString_pieces (drvlist : LCFGDerivationList) :
    DerivList.toString drvlist = [' '].intercalate (pieces drvlist) := rfl

section Pieces

variable {drv : LCFGDerivation}

theorem pieces_invalid (invalid : ¬ Derivation.isValid drv = true) (rest : LCFGDerivationList) :
    pieces (drv :: rest) = pieces rest := by
  simp [pieces, sortLines, invalid]

theorem pieces_valid (valid : Derivation.isValid drv = true) (rest : LCFGDerivationList) :
    pieces (drv :: rest) = Derivation.toString (Derivation.sortLines drv) :: pieces rest := by
  have kept : Derivation.isValid (Derivation.sortLines drv) = true := valid
  simp [pieces, sortLines, valid, kept]

/-- Blanks stand before all pieces, or only between them. -/
def join (first : Bool) (parts : List (List Char)) : List Char :=
  if first then [' '].intercalate parts else parts.flatMap (' ' :: ·)

theorem join_first (part : List Char) (parts : List (List Char)) :
    join true (part :: parts) = part ++ join false parts := by
  induction parts generalizing part with
  | nil => simp [join, List.intercalate_singleton]
  | cons next parts ih =>
    have step := ih next
    simp only [join, if_true, Bool.false_eq_true, if_false, List.flatMap_cons] at step ⊢
    rw [List.intercalate_cons_cons, step]
    simp

theorem length_join (parts : List (List Char)) :
    (join true parts).length = (parts.map fun part => part.length + 1).sum - 1 := by
  have all : ∀ parts, (join false parts).length = (parts.map fun part => part.length + 1).sum := by
    intro parts
    simp [join, List.length_flatMap]
  cases parts with
  | nil => rfl
  | cons part parts =>
    rw [join_first, List.length_append, all, List.map_cons, List.sum_cons]
    omega

end Pieces

variable {heap heap' : CachedHeap} {nodes : List Addr}

theorem visible_cons (heap : CachedHeap) (a : Addr) (rest : List Addr) :
    visible heap (a :: rest) = (heap.cell a).toLCFGDerivation :: visible heap rest := rfl

/-- The cells show the same derivations, but for the order of their lines. -/
def SameSorted (heap heap' : CachedHeap) : Prop :=
  ∀ a, Derivation.sortLines (heap'.cell a).toLCFGDerivation =
    Derivation.sortLines (heap.cell a).toLCFGDerivation

theorem SameSorted.trans {third : CachedHeap} (first : SameSorted heap heap')
    (second : SameSorted heap' third) : SameSorted heap third :=
  fun a => (second a).trans (first a)

theorem sameSorted_write (a : Addr) {drv : CachedDerivation}
    (same : Derivation.sortLines drv.toLCFGDerivation =
      Derivation.sortLines (heap.cell a).toLCFGDerivation) :
    SameSorted heap (RefCount.write heap a drv) := by
  intro b
  by_cases here : b = a
  · subst here
    simpa [RefCount.write] using same
  · simp [RefCount.write, here]

theorem SameSorted.isValid (same : SameSorted heap heap') (a : Addr) :
    Derivation.isValid (heap'.cell a).toLCFGDerivation =
      Derivation.isValid (heap.cell a).toLCFGDerivation := by
  have file := congrArg LCFGDerivation.file (same a)
  change (heap'.cell a).file = (heap.cell a).file at file
  rw [Derivation.isValid, Derivation.isValid, file]

theorem SameSorted.pieces (same : SameSorted heap heap') (nodes : List Addr) :
    pieces (visible heap' nodes) = pieces (visible heap nodes) := by
  induction nodes with
  | nil => rfl
  | cons a rest ih =>
    rw [visible_cons, visible_cons]
    by_cases valid : Derivation.isValid (heap.cell a).toLCFGDerivation = true
    · rw [pieces_valid valid, pieces_valid ((same.isValid a).trans valid), same a, ih]
    · rw [pieces_invalid valid, pieces_invalid (by rwa [same.isValid a]), ih]

theorem sortLines_sortLines (drv : CachedDerivation) :
    Derivation.sortLines drv.sortLines.toLCFGDerivation =
      Derivation.sortLines drv.toLCFGDerivation := by
  have ordered : (drv.lines.insertionSort (· ≤ ·)).insertionSort (· ≤ ·) =
      drv.lines.insertionSort (· ≤ ·) :=
    (List.pairwise_insertionSort _ _).insertionSort_eq
  simp only [CachedDerivation.sortLines, Derivation.sortLines, ordered]

theorem length_toString_pos {drv : LCFGDerivation} (valid : Derivation.isValid drv = true) :
    0 < (Derivation.toString drv).length := by
  have filled : drv.file.getD "" ≠ "" := by
    intro empty
    rw [Derivation.isValid, (isEmpty_iff drv.file).mpr empty] at valid
    cases valid
  rw [Derivation.toString, List.length_append]
  have some_ : 0 < (drv.file.getD "").toList.length :=
    List.length_pos_iff.mpr fun none_ => filled (String.toList_eq_nil_iff.mp none_)
  omega

theorem addLengths_spec (all : AllFresh heap) (length : Nat) :
    (addLengths heap length nodes).2 =
        length + ((pieces (visible heap nodes)).map fun part => part.length + 1).sum ∧
      AllFresh (addLengths heap length nodes).1 ∧
      SameSorted heap (addLengths heap length nodes).1 := by
  induction nodes generalizing heap length with
  | nil => exact ⟨rfl, all, fun a => rfl⟩
  | cons a rest ih =>
    rw [addLengths, visible_cons]
    by_cases valid : Derivation.isValid (heap.cell a).toLCFGDerivation = true
    · obtain ⟨drvlen, fresh, kept⟩ := (all a).getLength_spec valid
      have same := @sameSorted_write heap a (heap.cell a).getLength.1 (by rw [kept])
      obtain ⟨total, fresh', same'⟩ := ih (all.write a fresh)
        (length + ((heap.cell a).getLength.2.toNat + 1))
      -- an entry which is valid has a text, and its cached length is the length of it
      have pos : 0 < (heap.cell a).getLength.2 := by
        rw [drvlen]
        exact_mod_cast length_toString_pos valid
      simp only [pos, if_true]
      refine ⟨?_, fresh', same.trans same'⟩
      rw [total, same.pieces, pieces_valid valid, List.map_cons, List.sum_cons, drvlen,
        CachedDerivation.length_toString_sortLines, Int.toNat_natCast]
      omega
    · have unchanged : (heap.cell a).getLength = (heap.cell a, -1) := by
        rw [CachedDerivation.getLength, if_pos (by simpa using valid)]
      have same := @sameSorted_write heap a (heap.cell a) rfl
      obtain ⟨total, fresh', same'⟩ := ih (all.write a (all a)) length
      have none_ : ¬ (0 : Int) < -1 := by decide
      simp only [unchanged, none_, if_false]
      refine ⟨?_, fresh', same.trans same'⟩
      rw [total, same.pieces, pieces_invalid valid]

theorem writeEach_spec (all : AllFresh heap) (first : Bool) (text : List Char) :
    ∃ heap', writeEach heap first text nodes =
        .ok (heap', text ++ join first (pieces (visible heap nodes))) ∧ AllFresh heap' ∧
      SameSorted heap heap' := by
  induction nodes generalizing heap first text with
  | nil =>
    refine ⟨heap, ?_, all, fun a => rfl⟩
    cases first <;> simp [writeEach, visible, pieces, sortLines, join]
  | cons a rest ih =>
    rw [writeEach, visible_cons]
    by_cases valid : Derivation.isValid (heap.cell a).toLCFGDerivation = true
    · rw [pieces_valid valid, valid, Bool.not_true, if_neg Bool.false_ne_true]
      -- the derivation with its lines in order is measured, and then written
      have sortedValid :
        Derivation.isValid (heap.cell a).sortLines.toLCFGDerivation = true := valid
      obtain ⟨drvLen, fresh, kept⟩ := (all a).sortLines.getLength_spec sortedValid
      have long := length_toString_pos sortedValid
      obtain ⟨drv, len, measured⟩ : ∃ drv len, (heap.cell a).sortLines.getLength = (drv, len) :=
        ⟨_, _, rfl⟩
      rw [measured] at drvLen fresh kept ⊢
      dsimp only at drvLen fresh kept ⊢
      have keptDrv : drv.toLCFGDerivation = (heap.cell a).sortLines.toLCFGDerivation := by rw [kept]
      have validDrv : Derivation.isValid drv.toLCFGDerivation = true := by rwa [keptDrv]
      obtain ⟨again, fresh', kept'⟩ := fresh.getLength_spec validDrv
      have pos : 0 < len := by omega
      have fits : ¬ len.toNat + 1 < drv.getLength.2.toNat + 1 := by
        rw [again, keptDrv, ← drvLen]
        omega
      simp only [pos, if_true, fits, if_false, fresh.toString_spec false validDrv]
      have same : SameSorted heap
          (RefCount.write (RefCount.write heap a drv) a drv.getLength.1) := by
        apply (sameSorted_write a (by rw [keptDrv, sortLines_sortLines])).trans
        apply sameSorted_write a
        rw [kept']
        simp [RefCount.write]
      obtain ⟨heap', written, all', same'⟩ := ih ((all.write a fresh).write a fresh') false
        ((if first then text else text ++ [' ']) ++
          (some (Derivation.toString drv.toLCFGDerivation ++ newlineText false)).getD [])
      refine ⟨heap', written.trans ?_, all', same.trans same'⟩
      rw [same.pieces, keptDrv, Option.getD_some]
      cases first with
      | true => simp [join_first, newlineText, CachedDerivation.sortLines, Derivation.sortLines]
      | false => simp [join, newlineText, CachedDerivation.sortLines, Derivation.sortLines]
    · rw [pieces_invalid valid, if_pos (by simpa using valid)]
      exact ih all first text

theorem getStringLength_spec (all : AllFresh heap) (nodes : List Addr) :
    (getStringLength heap nodes).2 = (DerivList.toString (visible heap nodes)).length ∧
      AllFresh (getStringLength heap nodes).1 ∧ SameSorted heap (getStringLength heap nodes).1 := by
  obtain ⟨total, fresh, same⟩ := @addLengths_spec heap nodes all 0
  refine ⟨?_, fresh, same⟩
  have text := length_join (pieces (visible heap nodes))
  rw [toString_pieces, getStringLength]
  change _ = (join true (pieces (visible heap nodes))).length
  rw [text]
  simp only [total, Nat.zero_add]
  split <;> omega

/-- The text of the list is written, and ends where the length says. -/
theorem toString_spec (all : AllFresh heap) (nodes : List Addr) (newline : Bool) :
    ∃ heap', Cached.toString heap nodes newline =
        .ok (heap', DerivList.toString (visible heap nodes) ++ newlineText newline) ∧
      AllFresh heap' ∧ SameSorted heap heap' := by
  obtain ⟨length, fresh, same⟩ := getStringLength_spec all nodes
  obtain ⟨heap', written, fresh', same'⟩ := @writeEach_spec _ nodes fresh true []
  refine ⟨heap', ?_, fresh', same.trans same'⟩
  -- the entries are sorted while their lengths are counted, not while they are written
  have text : [] ++ join true (pieces (visible (getStringLength heap nodes).1 nodes)) =
      DerivList.toString (visible heap nodes) := by
    rw [same.pieces]
    rfl
  rw [text] at written
  rw [Cached.toString]
  simp only [written, length]
  exact if_pos List.length_append

end Cached

/-! ## The same without the lengths -/

namespace Cached

def erase (heap : CachedHeap) : DerivHeap where
  cell a := (heap.cell a).toStoredDerivation
  count := heap.count
  fresh := heap.fresh

/-- A result of a merge without the lengths. -/
def eraseMerge (r : CachedHeap × List Addr × LCFGChange) : DerivHeap × List Addr × LCFGChange :=
  (erase r.1, r.2)

def eraseEntry (r : CachedDerivation × LCFGChange) : StoredDerivation × LCFGChange :=
  (r.1.toStoredDerivation, r.2)

section Erase

variable (heap : CachedHeap) (nodes : List Addr)

theorem erase_write (a : Addr) (drv : CachedDerivation) :
    erase (RefCount.write heap a drv) =
      RefCount.write (erase heap) a drv.toStoredDerivation := by
  simp only [erase, RefCount.write, RefCount.Heap.mk.injEq, and_self, and_true]
  funext b
  by_cases same : b = a
  · subst same
    simp
  · simp [same]

theorem erase_alloc (drv : CachedDerivation) :
    erase (RefCount.alloc heap drv).2 = (RefCount.alloc (erase heap) drv.toStoredDerivation).2 := by
  have written := congrArg RefCount.Heap.cell (erase_write heap heap.fresh drv)
  simp only [RefCount.write] at written
  simp only [erase, RefCount.alloc, RefCount.Heap.mk.injEq, and_self, and_true]
  exact written

theorem erase_relinquish (a : Addr) :
    erase (RefCount.relinquish {} heap a) = RefCount.relinquish {} (erase heap) a := by
  have written := congrArg RefCount.Heap.cell (erase_write heap a {})
  simp only [RefCount.write] at written
  rw [RefCount.relinquish, RefCount.relinquish]
  have count : (erase heap).count = heap.count := rfl
  rw [count]
  by_cases last : heap.count a ≤ 1
  · simp only [last, if_true]
    simp only [erase, RefCount.Heap.mk.injEq, and_self, and_true]
    exact written
  · simp only [last, if_false]
    rfl

theorem erase_acquireAll : erase (acquireAll heap nodes) = DerivList.acquireAll (erase heap) nodes := by
  rw [acquireAll, DerivList.acquireAll]
  induction nodes generalizing heap with
  | nil => rfl
  | cons a nodes ih => exact ih (RefCount.acquire heap a)

theorem erase_relinquishAll :
    erase (relinquishAll heap nodes) = DerivList.relinquishAll (erase heap) nodes := by
  rw [relinquishAll, DerivList.relinquishAll]
  induction nodes generalizing heap with
  | nil => rfl
  | cons a nodes ih =>
    rw [List.foldl_cons, List.foldl_cons, ih, erase_relinquish]

end Erase

section Entries

theorem erase_mergeLine (drv : CachedDerivation) (line : Nat) :
    (drv.mergeLine line).map eraseEntry = drv.toStoredDerivation.mergeLine line := by
  rw [CachedDerivation.mergeLine, StoredDerivation.mergeLine]
  split
  · rfl
  split
  · rfl
  · rfl

theorem erase_mergeLines (drv : CachedDerivation) (change : LCFGChange) (lines : List Nat) :
    (drv.mergeEach change lines).map eraseEntry =
      drv.toStoredDerivation.mergeEach change lines := by
  induction lines generalizing drv change with
  | nil => rfl
  | cons line lines ih =>
    exact Outcome.map_bind (erase_mergeLine drv line) fun r => ih r.1 _

theorem erase_clone (drv : LCFGDerivation) :
    (CachedDerivation.clone drv).map (·.toStoredDerivation) = StoredDerivation.clone drv := by
  have merged := erase_mergeLines
    (CachedDerivation.setFile {} (if isEmpty drv.file then none else drv.file)) .none drv.lines
  rw [CachedDerivation.clone, StoredDerivation.clone, CachedDerivation.mergeLines,
    StoredDerivation.mergeLines]
  have start : (CachedDerivation.setFile {}
      (if isEmpty drv.file then none else drv.file)).toStoredDerivation =
        { file := if isEmpty drv.file then none else drv.file } := rfl
  rw [← start, ← merged]
  cases CachedDerivation.mergeEach _ .none drv.lines <;> rfl

theorem erase_ofFileLine (filename : Option String) (line : Int32) :
    (CachedDerivation.ofFileLine filename line).map eraseEntry =
      StoredDerivation.ofFileLine filename line := by
  rw [CachedDerivation.ofFileLine, StoredDerivation.ofFileLine]
  split
  · exact erase_mergeLine _ _
  · rfl

theorem erase_fromString (token : List Char) :
    (CachedDerivation.fromString token).map (·.map (·.toStoredDerivation)) =
      StoredDerivation.fromString token := by
  rw [CachedDerivation.fromString]
  cases StoredDerivation.fromString token with
  | error => rfl
  | ok parsed => cases parsed <;> rfl

end Entries

section Merges

variable (heap : CachedHeap) (nodes : List Addr)

theorem erase_keepClone (i : Nat) (clone : Addr) (change : LCFGChange) :
    DerivList.keepClone (erase heap) nodes i clone change =
      (erase (keepClone heap nodes i clone change).1,
        (keepClone heap nodes i clone change).2) := by
  rw [DerivList.keepClone, keepClone]
  split
  · rw [erase_relinquish]
  · rw [erase_relinquish]

theorem erase_modifyEntry (i : Nat)
    {merge : CachedDerivation → Except OutOfBounds (CachedDerivation × LCFGChange)}
    {merge' : StoredDerivation → Except OutOfBounds (StoredDerivation × LCFGChange)}
    (same : ∀ drv, (merge drv).map eraseEntry = merge' drv.toStoredDerivation) :
    (modifyEntry heap nodes i merge).map eraseMerge =
      DerivList.modifyEntry (erase heap) nodes i merge' := by
  rw [modifyEntry, DerivList.modifyEntry]
  have shared : RefCount.isShared (erase heap) (nodes.getD i 0) =
      RefCount.isShared heap (nodes.getD i 0) := rfl
  rw [shared]
  -- a shared entry is cloned before it is changed
  split
  · refine Outcome.map_bind (same _) fun r => ?_
    change Except.ok _ = Except.ok _
    rw [eraseMerge, erase_write]
  · refine Outcome.map_bind (erase_clone _) fun copy => ?_
    refine Outcome.map_bind (same copy) fun r => ?_
    have kept := erase_keepClone (RefCount.write (RefCount.alloc heap copy).2 heap.fresh r.1) nodes
      i heap.fresh r.2
    rw [erase_write, erase_alloc] at kept
    let cloned := DerivList.keepClone (RefCount.write
      (RefCount.alloc (erase heap) copy.toStoredDerivation).2 heap.fresh r.1.toStoredDerivation)
      nodes i heap.fresh r.2
    change _ = Except.ok (cloned.1, cloned.2, r.2)
    dsimp only [cloned]
    rw [kept]
    rfl

theorem erase_findNode (file : String) :
    DerivList.findNode (erase heap) nodes file = findNode heap nodes file := rfl

theorem erase_mergeDerivation (newDrv : Addr) :
    (mergeDerivation heap nodes newDrv).map eraseMerge =
      DerivList.mergeShared (erase heap) nodes newDrv := by
  rw [mergeDerivation, DerivList.mergeShared]
  simp only [erase_findNode]
  change _ = if (!Derivation.isValid (heap.cell newDrv).toLCFGDerivation) = true then _ else _
  split
  · rfl
  change _ = match findNode heap nodes (orDefault (heap.cell newDrv).file "") with
    | none => _
    | some i => _
  split
  · rfl
  split
  · rfl
  · exact erase_modifyEntry heap nodes _ fun drv => erase_mergeLines drv .none _

theorem erase_mergeNew (drv : CachedDerivation) :
    (mergeNew heap nodes drv).map eraseMerge =
      DerivList.mergeNew (erase heap) nodes drv.toStoredDerivation := by
  refine Outcome.map_bind (g := eraseMerge) ?_ fun r => ?_
  · have merged := erase_mergeDerivation (RefCount.alloc heap drv).2 nodes heap.fresh
    rw [erase_alloc] at merged
    exact merged
  · change Except.ok _ = Except.ok _
    rw [eraseMerge, erase_relinquish]
    rfl

theorem erase_mergeFileLine (filename : Option String) (line : Int32) :
    (mergeFileLine heap nodes filename line).map eraseMerge =
      DerivList.mergeFileLineShared (erase heap) nodes filename line := by
  rw [mergeFileLine, DerivList.mergeFileLineShared]
  simp only [erase_findNode]
  -- the guards do not look at the cached lengths
  split
  · rfl
  cases findNode heap nodes (orDefault filename "") with
  | none =>
    refine Outcome.map_bind (erase_ofFileLine filename line) fun r => ?_
    change Except.map eraseMerge (if r.2.isOk = true then _ else _) =
      if r.2.isOk = true then _ else _
    split
    · change Except.ok _ = Except.ok _
      have dropped := erase_relinquish
        (RefCount.acquire (RefCount.alloc heap r.1).2 heap.fresh) heap.fresh
      have acquired : erase (RefCount.acquire (RefCount.alloc heap r.1).2 heap.fresh) =
          RefCount.acquire (erase (RefCount.alloc heap r.1).2) heap.fresh := rfl
      rw [acquired, erase_alloc] at dropped
      exact congrArg Except.ok (congrArg (·, _) dropped)
    · have dropped := erase_relinquish (RefCount.alloc heap r.1).2 heap.fresh
      rw [erase_alloc] at dropped
      exact congrArg Except.ok (congrArg (·, _) dropped)
  | some i =>
    simp only
    split
    · change Except.map eraseMerge (if Derivation.hasLine
        (heap.cell (nodes.getD i 0)).toLCFGDerivation line.toInt.toNat = true then _ else _) =
        if Derivation.hasLine (heap.cell (nodes.getD i 0)).toLCFGDerivation line.toInt.toNat = true
          then _ else _
      split
      · rfl
      · exact erase_modifyEntry heap nodes i fun drv => erase_mergeLine drv _
    · rfl

theorem erase_mergeEach (change : LCFGChange) (rest : List Addr) :
    (mergeEach heap nodes change rest).map eraseMerge =
      DerivList.mergeEach (erase heap) nodes change rest := by
  induction rest generalizing heap nodes change with
  | nil => rfl
  | cons drv rest ih =>
    rw [mergeEach, DerivList.mergeEach]
    split
    · rfl
    change Except.map eraseMerge (if (!Derivation.isValid (heap.cell drv).toLCFGDerivation) = true
      then _ else _) = if (!Derivation.isValid (heap.cell drv).toLCFGDerivation) = true then _ else _
    split
    · exact ih heap nodes change
    · exact Outcome.map_bind (erase_mergeDerivation heap nodes drv) fun r => ih r.1 r.2.1 _

/-- A list which is read, or the message, without the lengths. -/
def eraseRead (r : CachedHeap × Except String (List Addr)) :
    DerivHeap × Except String (List Addr) :=
  (erase r.1, r.2)

theorem erase_addTokens (tokens : List (List Char)) :
    (addTokens heap nodes tokens).map eraseRead =
      DerivList.addTokens (erase heap) nodes tokens := by
  -- the first token which cannot be read or merged ends the loop
  induction tokens generalizing heap nodes with
  | nil => rfl
  | cons token tokens ih =>
    rw [addTokens, DerivList.addTokens]
    refine Outcome.map_bind (erase_fromString token) fun parsed => ?_
    cases parsed with
    | error parseMsg => exact congrArg Except.ok (congrArg (·, _) (erase_relinquishAll heap nodes))
    | ok drv =>
      refine Outcome.map_bind (erase_mergeNew heap nodes drv) fun r => ?_
      change Except.map eraseRead (if r.2.2 = .error then _ else _) =
        if r.2.2 = .error then _ else _
      split
      · exact congrArg Except.ok (congrArg (·, _) (erase_relinquishAll r.1 r.2.1))
      · exact ih r.1 r.2.1

theorem erase_fromStringList (input : List Char) :
    (fromString heap input).map eraseRead = DerivList.parseShared (erase heap) input := by
  rw [fromString, DerivList.parseShared]
  split
  · rfl
  · exact erase_addTokens heap [] _

theorem erase_mergeStringList (input : List Char) :
    (mergeStringList heap nodes input).map eraseMerge =
      DerivList.mergeStringListShared (erase heap) nodes input := by
  rw [mergeStringList, DerivList.mergeStringListShared]
  refine Outcome.map_bind (erase_fromStringList heap input) fun r => ?_
  obtain ⟨heap', parsed⟩ := r
  cases parsed with
  | error => rfl
  | ok extra =>
    refine Outcome.map_bind (erase_mergeEach heap' nodes .none extra) fun r' => ?_
    exact congrArg Except.ok (congrArg (·, _) (erase_relinquishAll r'.1 extra))

end Merges

end Cached

/-! ## Runs -/

structure CachedFamily (ι : Type) where
  heap : CachedHeap
  lists : ι → List Addr

/-- Lists are cloned and merged, measured and written; a derivation in a list may also be
written to directly. -/
inductive CachedOp (ι : Type) where
  | shared (op : DerivOp ι)
  | getStringLength (i : ι)
  | toString (i : ι) (newline : Bool)
  | setFile (i : ι) (k : Nat) (newValue : Option String)
  | mergeLine (i : ι) (k : Nat) (line : UInt32)

namespace CachedFamily

open Cached (AllFresh)

variable {ι : Type} [DecidableEq ι]

def new : CachedFamily ι := ⟨⟨fun _ => {}, fun _ => 0, 0⟩, fun _ => []⟩

def mergeInto (w : CachedFamily ι) (i : ι) :
    DerivMerge ι → Except OutOfBounds (CachedHeap × List Addr × LCFGChange)
  | .derivation file lines => do
    let (drv, _) ← (CachedDerivation.setFile {} file).mergeEach .none (lines.map UInt32.toNat)
    Cached.mergeNew w.heap (w.lists i) drv
  | .found other wantFile =>
    match Cached.findNode w.heap (w.lists other) wantFile with
    | none => .ok (w.heap, w.lists i, .none)
    | some k => Cached.mergeDerivation w.heap (w.lists i) ((w.lists other).getD k 0)
  | .fileLine filename line => Cached.mergeFileLine w.heap (w.lists i) filename line
  | .list other => Cached.mergeList w.heap (w.lists i) (w.lists other)
  | .stringList input => Cached.mergeStringList w.heap (w.lists i) input.toList

def sharedStep (w : CachedFamily ι) :
    DerivOp ι → Except OutOfBounds (CachedFamily ι × LCFGChange)
  | .clone i original =>
    .ok (⟨Cached.relinquishAll (Cached.acquireAll w.heap (w.lists original)) (w.lists i),
      Function.update w.lists i (w.lists original)⟩, .none)
  | .merge i what => do
    let (heap, nodes, change) ← w.mergeInto i what
    .ok (⟨heap, Function.update w.lists i nodes⟩, change)

def step (w : CachedFamily ι) : CachedOp ι → Except LengthFault (CachedFamily ι)
  | .shared op => ((w.sharedStep op).map Prod.fst).mapError .outOfBounds
  | .getStringLength i => .ok { w with heap := (Cached.getStringLength w.heap (w.lists i)).1 }
  | .toString i newline => do
    let (heap, _) ← Cached.toString w.heap (w.lists i) newline
    .ok { w with heap := heap }
  | .setFile i k newValue =>
    match (w.lists i)[k]? with
    | none => .ok w
    | some a => .ok { w with heap := RefCount.write w.heap a ((w.heap.cell a).setFile newValue) }
  | .mergeLine i k line =>
    match (w.lists i)[k]? with
    | none => .ok w
    | some a => (((w.heap.cell a).mergeLine line.toNat).map fun r =>
        { w with heap := RefCount.write w.heap a r.1 }).mapError .outOfBounds

def run (w : CachedFamily ι) : List (CachedOp ι) → Except LengthFault (CachedFamily ι)
  | [] => .ok w
  | op :: ops => do
    let w ← w.step op
    w.run ops

/-- A family of lists without the lengths. -/
def erase (w : CachedFamily ι) : DerivFamily ι := ⟨Cached.erase w.heap, w.lists⟩

omit [DecidableEq ι] in
theorem erase_mergeInto (w : CachedFamily ι) (i : ι) (what : DerivMerge ι) :
    (w.mergeInto i what).map Cached.eraseMerge = (erase w).mergeInto i what := by
  cases what with
  | derivation file lines =>
    exact Outcome.map_bind (Cached.erase_mergeLines _ .none _) fun r =>
      Cached.erase_mergeNew w.heap (w.lists i) r.1
  | found other wantFile =>
    rw [mergeInto, DerivFamily.mergeInto]
    change Except.map _ (match Cached.findNode w.heap (w.lists other) wantFile with
      | none => _
      | some k => _) = match Cached.findNode w.heap (w.lists other) wantFile with
      | none => _
      | some k => _
    cases Cached.findNode w.heap (w.lists other) wantFile with
    | none => rfl
    | some k => exact Cached.erase_mergeDerivation w.heap (w.lists i) _
  | fileLine filename line => exact Cached.erase_mergeFileLine w.heap (w.lists i) filename line
  | list other => exact Cached.erase_mergeEach w.heap (w.lists i) .none _
  | stringList input => exact Cached.erase_mergeStringList w.heap (w.lists i) _

/-- Clones and merges do to the lists what they do without the lengths. -/
theorem erase_sharedStep (w : CachedFamily ι) (op : DerivOp ι) :
    (w.sharedStep op).map (fun r => (erase r.1, r.2)) = (erase w).step op := by
  cases op with
  | clone i original =>
    have heaps := Cached.erase_relinquishAll
      (Cached.acquireAll w.heap (w.lists original)) (w.lists i)
    rw [Cached.erase_acquireAll] at heaps
    exact congrArg Except.ok (congrArg (fun heap => (DerivFamily.mk heap _, _)) heaps)
  | merge i what => exact Outcome.map_bind (erase_mergeInto w i what) fun _ => rfl

/-- The lines of a derivation do not fit in its array. -/
def Full (fault : LengthFault) : Prop := ∃ access, fault = .outOfBounds access

variable {w : CachedFamily ι}

omit [DecidableEq ι] in
theorem mergeInto_fresh (all : AllFresh w.heap) (i : ι) (what : DerivMerge ι) :
    Ends (fun _ => True) (w.mergeInto i what) fun r => AllFresh r.1 := by
  cases what with
  | derivation file lines =>
    exact ((CachedDerivation.fresh_reset _).mergeEach_spec .none _).bind
      fun r fresh => all.mergeNew fresh
  | found other wantFile =>
    rw [mergeInto]
    split
    · exact .pure all
    · exact all.mergeDerivation _
  | fileLine filename line => exact all.mergeFileLine filename line
  | list other => exact all.mergeEach .none _
  | stringList input => exact all.mergeStringList _

theorem sharedStep_fresh (all : AllFresh w.heap) (op : DerivOp ι) :
    Ends (fun _ => True) (w.sharedStep op) fun r => AllFresh r.1.heap := by
  cases op with
  | clone i original => exact .pure ((all.acquireAll _).relinquishAll _)
  | merge i what => exact (mergeInto_fresh all i what).bind fun r good => .pure good

/-- Step lemma, one case for each operation. -/
theorem step_fresh (all : AllFresh w.heap) (op : CachedOp ι) :
    Ends Full (w.step op) fun w' => AllFresh w'.heap := by
  cases op with
  | shared op =>
    have merged : Ends (fun _ => True) ((w.sharedStep op).map Prod.fst) fun w' =>
        AllFresh w'.heap := (sharedStep_fresh all op).map fun r good => good
    exact merged.mapError fun e _ => ⟨e, rfl⟩
  | getStringLength i => exact .pure (Cached.getStringLength_spec all _).2.1
  | toString i newline =>
    obtain ⟨heap', written, fresh, -⟩ := Cached.toString_spec all (w.lists i) newline
    rw [step, written]
    exact .pure fresh
  | setFile i k newValue =>
    rw [step]
    split
    · exact .pure all
    · exact .pure (all.write _ (CachedDerivation.fresh_reset _))
  | mergeLine i k line =>
    rw [step]
    split
    case h_1 => exact .pure all
    case h_2 a _ =>
      have merged : Ends (fun _ => True) (((w.heap.cell a).mergeLine line.toNat).map fun r =>
          { w with heap := RefCount.write w.heap a r.1 }) fun w' => AllFresh w'.heap :=
        ((all a).mergeLine_spec line.toNat).map fun r fresh => all.write a fresh
      exact merged.mapError fun e _ => ⟨e, rfl⟩

/-- Run lemma, by induction over the operations. -/
theorem run_fresh (all : AllFresh w.heap) (ops : List (CachedOp ι)) :
    Ends Full (w.run ops) fun w' => AllFresh w'.heap := by
  induction ops generalizing w with
  | nil => exact .pure all
  | cons op ops ih => exact (step_fresh all op).bind fun w' good => ih good

/-- However lists are cloned, merged, measured and written, no length which is kept with a
derivation is stale, and each list is written to a buffer of just its length. A run stops
only when a derivation with 2^31 lines should get another one. -/
theorem run_lengths (ops : List (CachedOp ι)) :
    Ends Full ((new : CachedFamily ι).run ops) fun w =>
      (∀ a, Fresh (w.heap.cell a)) ∧
      ∀ i newline, ∃ heap' text, Cached.toString w.heap (w.lists i) newline = .ok (heap', text) ∧
        text.length = (Cached.getStringLength w.heap (w.lists i)).2 +
          (newlineText newline).length := by
  have start : AllFresh (new : CachedFamily ι).heap := fun _ => CachedDerivation.fresh_new
  refine (run_fresh start ops).mono fun w all => ⟨all, fun i newline => ?_⟩
  obtain ⟨heap', written, -, -⟩ := Cached.toString_spec all (w.lists i) newline
  refine ⟨heap', _, written, ?_⟩
  rw [List.length_append, (Cached.getStringLength_spec all _).1]

end CachedFamily

end DerivList
end Lcfg
