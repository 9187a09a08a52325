import LcfgCore.DerivationText
import LcfgCore.Library.Outcome
import LcfgCore.Library.RefCount

/-!
# Shared derivations

Lists of derivations whose entries are shared between the lists and copied before
they are written to (`common/derivation/derivation.c` and `list.c`). A list holds
the addresses of its derivations.
-/
namespace Lcfg

open RefCount (Counts Agree)
open Outcome (Yields)

/-- A derivation with the length of the array which is allocated for its lines, 0 for
the null pointer. -/
structure StoredDerivation extends LCFGDerivation where
  linesSize : Nat := 0
deriving DecidableEq, Repr

/-- An access behind the end of an array. -/
structure OutOfBounds where
  index : Nat
deriving DecidableEq, Repr

abbrev DerivHeap := RefCount.Heap StoredDerivation

/-! ## One derivation -/

namespace StoredDerivation

/-- `DEFAULT_LINES_SIZE` -/
def defaultLinesSize : Nat := 4

/-- The length of the array with room for one more line, in an `unsigned int`. -/
def grownSize (drv : StoredDerivation) : Nat :=
  if drv.linesSize = 0 then defaultLinesSize
  else
    let count := (drv.lines.length + 1) % 2 ^ 32
    let newSize := if count > drv.linesSize then 2 * drv.linesSize % 2 ^ 32 else count
    if newSize > drv.linesSize then newSize else drv.linesSize

def mergeLine (drv : StoredDerivation) (line : Nat) :
    Except OutOfBounds (StoredDerivation × LCFGChange) :=
  if Derivation.hasLine drv.toLCFGDerivation line then .ok (drv, .none)
  else if drv.lines.length < drv.grownSize then
    .ok ({ drv with lines := drv.lines ++ [line], linesSize := drv.grownSize }, .added)
  else .error ⟨drv.lines.length⟩

def mergeEach (drv : StoredDerivation) (change : LCFGChange) :
    List Nat → Except OutOfBounds (StoredDerivation × LCFGChange)
  | [] => .ok (drv, change)
  | line :: lines => do
    let (drv, addChange) ← drv.mergeLine line
    drv.mergeEach (if addChange = .added then .modified else change) lines

def mergeLines (drv1 : StoredDerivation) (drv2 : LCFGDerivation) :
    Except OutOfBounds (StoredDerivation × LCFGChange) :=
  drv1.mergeEach .none drv2.lines

/-- `lcfgderivation_clone` -/
def clone (drv : LCFGDerivation) : Except OutOfBounds StoredDerivation :=
  (mergeLines { file := if isEmpty drv.file then none else drv.file } drv).map Prod.fst

/-- A derivation for a line of a file, or for the file alone. -/
def ofFileLine (filename : Option String) (line : Int32) :
    Except OutOfBounds (StoredDerivation × LCFGChange) :=
  let new : StoredDerivation := { file := filename }
  if 0 ≤ line.toInt then new.mergeLine line.toInt.toNat else .ok (new, .none)

/-- The line numbers of a text, as in `Derivation.parseLines`. -/
def parseLines : Nat → StoredDerivation → List Char →
    Except OutOfBounds (Except String StoredDerivation)
  | 0, drv, _ => .ok (.ok drv)
  | fuel + 1, drv, start =>
    if start = [] then .ok (.ok drv)
    else
      match strtoul0 start with
      | none => .ok (.error ("Invalid derivation line number '" ++ String.ofList start ++ "'"))
      | some (line, rest) => do
        let (drv, _) ← drv.mergeLine (line % 2 ^ 32)
        parseLines fuel drv (rest.dropWhile (· == ','))

/-- `lcfgderivation_from_string` -/
def fromString (input : List Char) : Except OutOfBounds (Except String StoredDerivation) :=
  let input := input.dropWhile isSpace
  if input = [] then .ok (.error "Invalid derivation string")
  else if input.contains ':' then
    let file := (input.rdropWhile (· != ':')).dropLast
    let start := (input.rtakeWhile (· != ':')).dropWhile (· == ',')
    (parseLines (start.length + 1) {} start).map fun parsed =>
      parsed.map fun drv => { drv with file := some (String.ofList file) }
  else .ok (.ok { file := some (String.ofList input) })

end StoredDerivation

/-! ## Lists of shared derivations -/

namespace DerivList

variable (heap : DerivHeap) (nodes : List Addr)

/-- The derivations which a list shows. -/
def visible : LCFGDerivationList := nodes.map fun a => (heap.cell a).toLCFGDerivation

/-- `lcfgderivlist_find_node`: the position of the first entry for a file. -/
def findNode (wantFile : String) : Option Nat :=
  (visible heap nodes).findIdx? fun drv =>
    Derivation.isValid drv && Derivation.matchFile drv wantFile

/-- The last step of a write to a shared entry: the changed clone takes its place,
an unchanged one is dropped. -/
def keepClone (i : Nat) (clone : Addr) (change : LCFGChange) : DerivHeap × List Addr :=
  if change.isOk && change ≠ .none then
    (RefCount.relinquish {} heap (nodes.getD i 0), nodes.set i clone)
  else (RefCount.relinquish {} heap clone, nodes)

/-- Writes to the entry at a position, or to a clone of it if it is shared. -/
def modifyEntry (i : Nat)
    (merge : StoredDerivation → Except OutOfBounds (StoredDerivation × LCFGChange)) :
    Except OutOfBounds (DerivHeap × List Addr × LCFGChange) :=
  let curDrv := nodes.getD i 0
  if !RefCount.isShared heap curDrv then do
    let (drv, change) ← merge (heap.cell curDrv)
    .ok (RefCount.write heap curDrv drv, nodes, change)
  else do
    let copy ← StoredDerivation.clone (heap.cell curDrv).toLCFGDerivation
    let (clone, heap) := RefCount.alloc heap copy
    let (drv, change) ← merge copy
    let (heap, nodes) := keepClone (RefCount.write heap clone drv) nodes i clone change
    .ok (heap, nodes, change)

def mergeShared (newDrv : Addr) : Except OutOfBounds (DerivHeap × List Addr × LCFGChange) :=
  let new := (heap.cell newDrv).toLCFGDerivation
  if !Derivation.isValid new then .ok (heap, nodes, .error)
  else
    match findNode heap nodes (orDefault new.file "") with
    | none => .ok (RefCount.acquire heap newDrv, nodes ++ [newDrv], .added)
    | some i =>
      if nodes.getD i 0 = newDrv then .ok (heap, nodes, .none)
      else modifyEntry heap nodes i fun drv => drv.mergeLines new

/-- A derivation of the caller, who gives up the reference after the merge. -/
def mergeNew (drv : StoredDerivation) : Except OutOfBounds (DerivHeap × List Addr × LCFGChange) :=
  let (a, heap) := RefCount.alloc heap drv
  do
    let (heap, nodes, change) ← mergeShared heap nodes a
    .ok (RefCount.relinquish {} heap a, nodes, change)

def mergeFileLineShared (filename : Option String) (line : Int32) :
    Except OutOfBounds (DerivHeap × List Addr × LCFGChange) :=
  if isEmpty filename then .ok (heap, nodes, .none)
  else
    match findNode heap nodes (orDefault filename "") with
    | none => do
      let (drv, change) ← StoredDerivation.ofFileLine filename line
      let (a, heap) := RefCount.alloc heap drv
      if change.isOk then
        -- appended, and given up by this function
        .ok (RefCount.relinquish {} (RefCount.acquire heap a) a, nodes ++ [a], .added)
      else .ok (RefCount.relinquish {} heap a, nodes, change)
    | some i =>
      if 0 ≤ line.toInt then
        if Derivation.hasLine (heap.cell (nodes.getD i 0)).toLCFGDerivation line.toInt.toNat then
          .ok (heap, nodes, .none)
        else modifyEntry heap nodes i fun drv => drv.mergeLine line.toInt.toNat
      else .ok (heap, nodes, .none)

def mergeEach (heap : DerivHeap) (nodes : List Addr) (change : LCFGChange) :
    List Addr → Except OutOfBounds (DerivHeap × List Addr × LCFGChange)
  | [] => .ok (heap, nodes, change)
  | drv :: rest =>
    if !change.isOk then .ok (heap, nodes, change)
    else if !Derivation.isValid (heap.cell drv).toLCFGDerivation then
      mergeEach heap nodes change rest
    else do
      let (heap, nodes, mergeRc) ← mergeShared heap nodes drv
      mergeEach heap nodes
        (if mergeRc = .error then .error else if mergeRc ≠ .none then .modified else change) rest

/-- `lcfgderivlist_merge_list`. A list which is merged into itself does not change, so
the entries of the second one are those at the start. -/
def mergeListShared (nodes2 : List Addr) :
    Except OutOfBounds (DerivHeap × List Addr × LCFGChange) :=
  mergeEach heap nodes .none nodes2

/-- `lcfgderivlist_clone` shares all the entries. -/
def acquireAll : DerivHeap := nodes.foldl RefCount.acquire heap

/-- `lcfgderivlist_destroy` -/
def relinquishAll : DerivHeap := nodes.foldl (RefCount.relinquish {}) heap

def addTokens (heap : DerivHeap) (nodes : List Addr) :
    List (List Char) → Except OutOfBounds (DerivHeap × Except String (List Addr))
  | [] => .ok (heap, .ok nodes)
  | token :: tokens => do
    match ← StoredDerivation.fromString token with
    | .error parseMsg =>
      .ok (relinquishAll heap nodes, .error
        ("Failed to parse derivation '" ++ String.ofList token ++ "': " ++ parseMsg))
    | .ok drv =>
      let (heap, nodes, change) ← mergeNew heap nodes drv
      if change = .error then
        .ok (relinquishAll heap nodes,
          .error ("Failed to add derivation '" ++ String.ofList token ++ "' to list"))
      else addTokens heap nodes tokens

/-- `lcfgderivlist_from_string`: a new list. -/
def parseShared (input : List Char) :
    Except OutOfBounds (DerivHeap × Except String (List Addr)) :=
  let input := input.dropWhile isSpace
  if input = [] then .ok (heap, .error "Invalid derivation string")
  else addTokens heap [] (Fields.tokens isDelimiter input)

/-- `lcfgderivlist_merge_string_list` -/
def mergeStringListShared (input : List Char) :
    Except OutOfBounds (DerivHeap × List Addr × LCFGChange) := do
  match ← parseShared heap input with
  | (heap, .error _) => .ok (heap, nodes, .error)
  | (heap, .ok extra) =>
    let (heap, nodes, change) ← mergeListShared heap nodes extra
    .ok (relinquishAll heap extra, nodes, change)

/-- `lcfgderivlist_merge_file_line` on a list which shares nothing. -/
def mergeFileLine (drvlist : LCFGDerivationList) (filename : Option String) (line : Int32) :
    LCFGDerivationList × LCFGChange :=
  if isEmpty filename then (drvlist, .none)
  else
    let found (drv : LCFGDerivation) :=
      Derivation.isValid drv && Derivation.matchFile drv (orDefault filename "")
    match drvlist.findIdx? found with
    | none =>
      (drvlist ++ [⟨filename, if 0 ≤ line.toInt then [line.toInt.toNat] else []⟩], .added)
    | some i =>
      if 0 ≤ line.toInt then
        let (drv, change) := Derivation.mergeLine (drvlist.getD i {}) line.toInt.toNat
        (drvlist.set i drv, change)
      else (drvlist, .none)

/-- `lcfgderivlist_merge_string_list` on a list which shares nothing. -/
def mergeStringList (drvlist : LCFGDerivationList) (input : List Char) :
    LCFGDerivationList × LCFGChange :=
  match fromString input with
  | .error _ => (drvlist, .error)
  | .ok extra => mergeList drvlist extra

/-- One round of `mergeList`. -/
def mergeEntry (r : LCFGDerivationList × LCFGChange) (drv : LCFGDerivation) :
    LCFGDerivationList × LCFGChange :=
  if r.2 = .error || !Derivation.isValid drv then r
  else
    match mergeDerivation r.1 drv with
    | (drvlist, .error) => (drvlist, .error)
    | (drvlist, .none) => (drvlist, r.2)
    | (drvlist, _) => (drvlist, .modified)

theorem mergeList_eq (drvlist1 drvlist2 : LCFGDerivationList) :
    mergeList drvlist1 drvlist2 = drvlist2.foldl mergeEntry (drvlist1, .none) := rfl

end DerivList

/-! ## What is stored of one derivation -/

namespace StoredDerivation

/-- A derivation with 2^31 lines cannot get another one: the new length of the array
wraps around to 0. -/
def full : OutOfBounds := ⟨2 ^ 31⟩

/-- A derivation as the library builds it. Its array has been doubled some times. -/
structure Built (drv : StoredDerivation) : Prop where
  array : drv.linesSize = 0 ∧ drv.lines = [] ∨
    ∃ k ≤ 29, drv.linesSize = 4 * 2 ^ k ∧ drv.lines.length ≤ drv.linesSize
  distinct : drv.lines.Nodup
  small : ∀ line ∈ drv.lines, line < 2 ^ 32

theorem built_file (file : Option String) : Built { file := file } :=
  ⟨.inl ⟨rfl, rfl⟩, List.nodup_nil, by simp⟩

theorem Built.setFile {drv : StoredDerivation} (built : Built drv) (file : Option String) :
    Built { drv with file := file } :=
  ⟨built.array, built.distinct, built.small⟩

/-- There is room for the line, or the array is as long as it can get and full. -/
theorem Built.grownSize_spec {drv : StoredDerivation} (built : Built drv) :
    (∃ k ≤ 29, drv.grownSize = 4 * 2 ^ k ∧ drv.lines.length < drv.grownSize) ∨
      drv.lines.length = 2 ^ 31 ∧ drv.grownSize = 2 ^ 31 := by
  obtain ⟨size, none_⟩ | ⟨k, le, size, fits⟩ := built.array
  -- the first block has room for four numbers
  · refine .inl ⟨0, by decide, ?_, ?_⟩
    all_goals simp [grownSize, size, none_, defaultLinesSize]
  · have pos : 0 < 2 ^ k := Nat.two_pow_pos k
    have bound : 2 ^ k ≤ 2 ^ 29 := Nat.pow_le_pow_right (by decide) le
    have some_ : drv.linesSize ≠ 0 := by omega
    have count : (drv.lines.length + 1) % 2 ^ 32 = drv.lines.length + 1 :=
      Nat.mod_eq_of_lt (by omega)
    simp only [grownSize, if_neg some_, count]
    by_cases room : drv.lines.length < drv.linesSize
    · refine .inl ⟨k, le, ?_⟩
      have shorter : ¬ drv.lines.length + 1 > drv.linesSize := by omega
      rw [if_neg shorter, if_neg shorter]
      exact ⟨size, room⟩
    -- the block is full, and its length is doubled
    · have longer : drv.lines.length + 1 > drv.linesSize := by omega
      rw [if_pos longer]
      by_cases last : k = 29
      · -- twice the length is 2^32
        subst last
        have wraps : 2 * drv.linesSize % 2 ^ 32 = 0 := by omega
        rw [wraps, if_neg (Nat.not_lt_zero _)]
        exact .inr ⟨by omega, by omega⟩
      · have half : 2 ^ k ≤ 2 ^ 28 := Nat.pow_le_pow_right (by decide) (by omega)
        have doubled : 2 * drv.linesSize % 2 ^ 32 = 2 * drv.linesSize :=
          Nat.mod_eq_of_lt (by omega)
        rw [doubled, if_pos (by omega)]
        refine .inl ⟨k + 1, by omega, ?_, by omega⟩
        rw [size, Nat.pow_succ]
        omega

theorem Built.mergeLine_spec {drv : StoredDerivation} (built : Built drv) {line : Nat}
    (small : line < 2 ^ 32) :
    Yields full (drv.mergeLine line) fun r => Built r.1 ∧
      (r.1.toLCFGDerivation, r.2) = Derivation.mergeLine drv.toLCFGDerivation line := by
  unfold mergeLine Derivation.mergeLine
  cases there : Derivation.hasLine drv.toLCFGDerivation line with
  | true => exact .pure ⟨built, rfl⟩
  | false =>
    rw [if_neg Bool.false_ne_true, if_neg Bool.false_ne_true]
    obtain ⟨k, le, size, room⟩ | ⟨length, size⟩ := built.grownSize_spec
    · rw [if_pos room]
      have absent : line ∉ drv.lines := by
        simpa [Derivation.hasLine] using there
      refine .pure ⟨⟨.inr ⟨k, le, size, ?_⟩, ?_, ?_⟩, rfl⟩
      · simpa using Nat.succ_le_of_lt room
      · exact List.nodup_append.mpr ⟨built.distinct, List.nodup_singleton line,
          fun a old b new same => absent (by rw [← List.mem_singleton.mp new, ← same]; exact old)⟩
      · intro other member
        rcases List.mem_append.mp member with old | new
        · exact built.small other old
        · rw [List.mem_singleton.mp new]
          exact small
    · rw [if_neg (by omega), length]
      exact .stop

/-- One round of `Derivation.mergeLines`. -/
def addLine (r : LCFGDerivation × LCFGChange) (line : Nat) : LCFGDerivation × LCFGChange :=
  match Derivation.mergeLine r.1 line with
  | (drv, .added) => (drv, .modified)
  | (drv, _) => (drv, r.2)

theorem mergeLines_eq (drv1 drv2 : LCFGDerivation) :
    Derivation.mergeLines drv1 drv2 = drv2.lines.foldl addLine (drv1, .none) := rfl

private theorem addLine_old {drv : LCFGDerivation} {line : Nat} (old : line ∈ drv.lines)
    (change : LCFGChange) : addLine (drv, change) line = (drv, change) := by
  have there : Derivation.hasLine drv line = true := by simpa [Derivation.hasLine] using old
  simp [addLine, Derivation.mergeLine, there]

private theorem addLine_new {drv : LCFGDerivation} {line : Nat} (new : line ∉ drv.lines)
    (change : LCFGChange) :
    addLine (drv, change) line = ({ drv with lines := drv.lines ++ [line] }, .modified) := by
  have absent : Derivation.hasLine drv line = false := by simpa [Derivation.hasLine] using new
  simp [addLine, Derivation.mergeLine, absent]

theorem Built.mergeEach_spec {drv : StoredDerivation} (built : Built drv) (change : LCFGChange)
    (lines : List Nat) (small : ∀ line ∈ lines, line < 2 ^ 32) :
    Yields full (drv.mergeEach change lines) fun r => Built r.1 ∧
      (r.1.toLCFGDerivation, r.2) = lines.foldl addLine (drv.toLCFGDerivation, change) := by
  induction lines generalizing drv change with
  | nil => exact .pure ⟨built, rfl⟩
  | cons line lines ih =>
    rw [mergeEach]
    refine (built.mergeLine_spec (small line List.mem_cons_self)).bind fun r ⟨good, same⟩ => ?_
    refine (ih good _ fun other member => small other (List.mem_cons_of_mem line member)).mono
      fun r' ⟨good', same'⟩ => ⟨good', ?_⟩
    rw [same', List.foldl_cons]
    congr 1
    unfold addLine
    rw [← same]
    cases r.2 <;> rfl

theorem Built.mergeLines_spec {drv1 drv2 : StoredDerivation} (built1 : Built drv1)
    (built2 : Built drv2) :
    Yields full (drv1.mergeLines drv2.toLCFGDerivation) fun r => Built r.1 ∧
      (r.1.toLCFGDerivation, r.2) =
        Derivation.mergeLines drv1.toLCFGDerivation drv2.toLCFGDerivation :=
  built1.mergeEach_spec .none drv2.lines built2.small

end StoredDerivation

namespace Derivation

open StoredDerivation (addLine addLine_old addLine_new mergeLines_eq)

private theorem addLines_spec (drv : LCFGDerivation) (change : LCFGChange) (lines : List Nat) :
    let r := lines.foldl addLine (drv, change)
    r.1.file = drv.file ∧ (∀ line, line ∈ r.1.lines ↔ line ∈ drv.lines ∨ line ∈ lines) ∧
      (lines ⊆ drv.lines ∧ r = (drv, change) ∨ ¬ lines ⊆ drv.lines ∧ r.2 = .modified) := by
  induction lines generalizing drv change with
  | nil => exact ⟨rfl, by simp, .inl ⟨List.nil_subset _, rfl⟩⟩
  | cons line lines ih =>
    rw [List.foldl_cons]
    by_cases old : line ∈ drv.lines
    · rw [addLine_old old]
      obtain ⟨file, mem, report⟩ := ih drv change
      refine ⟨file, fun other => ?_, ?_⟩
      · rw [mem other, List.mem_cons]
        constructor
        · exact Or.imp_right .inr
        · rintro (there | rfl | later)
          · exact .inl there
          · exact .inl old
          · exact .inr later
      · rwa [List.cons_subset, and_iff_right old]
    · rw [addLine_new old]
      obtain ⟨file, mem, report⟩ := ih { drv with lines := drv.lines ++ [line] } .modified
      refine ⟨file, fun other => ?_, .inr ⟨fun sub => old (sub List.mem_cons_self), ?_⟩⟩
      · rw [mem other, List.mem_append, List.mem_singleton, List.mem_cons, or_assoc]
      · obtain ⟨-, same⟩ | ⟨-, modified⟩ := report
        · rw [same]
        · exact modified

/-- A merge of lines is their union, and reports whether there is a new one. -/
theorem mergeLines_spec (drv1 drv2 : LCFGDerivation) :
    (mergeLines drv1 drv2).1.file = drv1.file ∧
      (∀ line, line ∈ (mergeLines drv1 drv2).1.lines ↔ line ∈ drv1.lines ∨ line ∈ drv2.lines) ∧
      (drv2.lines ⊆ drv1.lines ∧ mergeLines drv1 drv2 = (drv1, .none) ∨
        ¬ drv2.lines ⊆ drv1.lines ∧ (mergeLines drv1 drv2).2 = .modified) :=
  addLines_spec drv1 .none drv2.lines

theorem mergeLine_wellFormed {drv : LCFGDerivation} {line : Nat} (distinct : drv.lines.Nodup)
    (known : ∀ other ∈ drv.lines, other < 2 ^ 32) (small : line < 2 ^ 32) :
    (mergeLine drv line).1.lines.Nodup ∧ ∀ other ∈ (mergeLine drv line).1.lines, other < 2 ^ 32 := by
  unfold mergeLine
  split
  · exact ⟨distinct, known⟩
  case isFalse absent =>
    have new : line ∉ drv.lines := by simpa [hasLine] using absent
    constructor
    · exact List.nodup_append.mpr ⟨distinct, List.nodup_singleton line,
        fun a old b last same => new (by rw [← List.mem_singleton.mp last, ← same]; exact old)⟩
    · intro other member
      rcases List.mem_append.mp member with old | last
      · exact known other old
      · rwa [List.mem_singleton.mp last]

private theorem addLines_nodup {drv : LCFGDerivation} (distinct : drv.lines.Nodup)
    (change : LCFGChange) (lines : List Nat) :
    (lines.foldl addLine (drv, change)).1.lines.Nodup := by
  induction lines generalizing drv change with
  | nil => exact distinct
  | cons line lines ih =>
    rw [List.foldl_cons]
    by_cases old : line ∈ drv.lines
    · rw [addLine_old old]
      exact ih distinct change
    · rw [addLine_new old]
      refine ih (List.nodup_append.mpr ⟨distinct, List.nodup_singleton line, ?_⟩) _
      exact fun a there b last same => old (by rw [← List.mem_singleton.mp last, ← same]; exact there)

theorem mergeLines_nodup {drv1 : LCFGDerivation} (distinct : drv1.lines.Nodup)
    (drv2 : LCFGDerivation) : (mergeLines drv1 drv2).1.lines.Nodup :=
  addLines_nodup distinct .none drv2.lines

theorem WellFormed.mergeLines {drv1 drv2 : LCFGDerivation} (wf1 : WellFormed drv1)
    (wf2 : WellFormed drv2) : WellFormed (mergeLines drv1 drv2).1 := by
  obtain ⟨file, lines, -⟩ := mergeLines_spec drv1 drv2
  refine ⟨?_, mergeLines_nodup wf1.lines drv2, fun line member => ?_⟩
  · rw [isValid, file]
    exact wf1.file
  · rcases (lines line).mp member with old | new
    · exact wf1.small line old
    · exact wf2.small line new

theorem mergeLines_self (drv : LCFGDerivation) : mergeLines drv drv = (drv, .none) := by
  obtain ⟨-, -, ⟨-, same⟩ | ⟨other, -⟩⟩ := mergeLines_spec drv drv
  · exact same
  · exact absurd (List.Subset.refl _) other

private theorem addLines_new {drv : LCFGDerivation} (change : LCFGChange) {lines : List Nat}
    (distinct : (drv.lines ++ lines).Nodup) :
    (lines.foldl addLine (drv, change)).1 = { drv with lines := drv.lines ++ lines } := by
  induction lines generalizing drv change with
  | nil => simp
  | cons line lines ih =>
    have new : line ∉ drv.lines := fun old =>
      (List.nodup_append.mp distinct).2.2 line old line List.mem_cons_self rfl
    have moved : drv.lines ++ line :: lines = drv.lines ++ [line] ++ lines := by simp
    rw [moved] at distinct
    rw [List.foldl_cons, addLine_new new, ih _ distinct, moved]

theorem file_of_valid {drv : LCFGDerivation} (valid : isValid drv = true) :
    drv.file = some (orDefault drv.file "") := by
  cases given : drv.file with
  | none => simp [isValid, given, isEmpty] at valid
  | some file => simp

/-- All lines of a derivation, merged into one without any. -/
theorem mergeLines_blank (file : Option String) {drv : LCFGDerivation}
    (distinct : drv.lines.Nodup) : (mergeLines ⟨file, []⟩ drv).1 = ⟨file, drv.lines⟩ := by
  rw [mergeLines_eq, addLines_new _ (by simpa using distinct), List.nil_append]

end Derivation

namespace StoredDerivation

/-- A clone of a derivation shows what the original shows. -/
theorem Built.clone_spec {drv : StoredDerivation} (built : Built drv)
    (valid : Derivation.isValid drv.toLCFGDerivation = true) :
    Yields full (clone drv.toLCFGDerivation) fun copy =>
      Built copy ∧ copy.toLCFGDerivation = drv.toLCFGDerivation := by
  have file : isEmpty drv.file = false := by
    simpa [Derivation.isValid] using valid
  unfold clone
  rw [file, if_neg Bool.false_ne_true]
  obtain stopped | ⟨r, done, good, same⟩ := (built_file drv.file).mergeLines_spec built
  · exact .inl (by rw [stopped]; rfl)
  · refine .inr ⟨r.1, by rw [done]; rfl, good, ?_⟩
    have merged : r.1.toLCFGDerivation = _ := congrArg Prod.fst same
    rw [merged]
    exact Derivation.mergeLines_blank _ built.distinct

theorem Built.parseLines_spec (fuel : Nat) {drv : StoredDerivation} (built : Built drv)
    (start : List Char) :
    Yields full (parseLines fuel drv start) fun parsed =>
      (∀ drv', parsed = .ok drv' → Built drv') ∧
      parsed.map (·.toLCFGDerivation) =
        Derivation.parseLines fuel drv.toLCFGDerivation start := by
  induction fuel generalizing drv start with
  | zero => exact .pure ⟨fun drv' same => Except.ok.inj same ▸ built, rfl⟩
  | succ fuel ih =>
    unfold parseLines Derivation.parseLines
    split
    · exact .pure ⟨fun drv' same => Except.ok.inj same ▸ built, rfl⟩
    · cases number : strtoul0 start with
      | none => exact .pure ⟨fun drv' same => (by cases same), rfl⟩
      | some converted =>
        refine (built.mergeLine_spec (Nat.mod_lt converted.1 (by decide))).bind fun r both => ?_
        obtain ⟨good, same⟩ := both
        have merged : r.1.toLCFGDerivation = _ := congrArg Prod.fst same
        dsimp only
        rw [← merged]
        exact ih good _

theorem fromString_spec (input : List Char) :
    Yields full (fromString input) fun parsed =>
      (∀ drv, parsed = .ok drv → Built drv) ∧
      parsed.map (·.toLCFGDerivation) = Derivation.fromString input := by
  unfold fromString Derivation.fromString
  simp only
  split
  · exact .pure ⟨fun drv same => (by cases same), rfl⟩
  · split
    · obtain stopped | ⟨parsed, done, good, same⟩ :=
        (built_file none).parseLines_spec _ (List.dropWhile (· == ',')
          (List.rtakeWhile (· != ':') (List.dropWhile isSpace input)))
      · exact .inl (by rw [stopped]; rfl)
      · refine .inr ⟨_, by rw [done]; rfl, fun drv read => ?_, ?_⟩
        · cases parsed with
          | error => cases read
          | ok drv' =>
            cases read
            exact (good drv' rfl).setFile _
        · rw [← same]
          cases parsed <;> rfl
    · exact .pure ⟨fun drv same => Except.ok.inj same ▸ built_file _, rfl⟩

end StoredDerivation

end Lcfg
