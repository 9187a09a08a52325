import LcfgCore.Common
import LcfgCore.Library.BlockStream
import Mathlib.Tactic.IntervalCases

/-!
# MD5

The digest of a message which is appended piece by piece (`utils/md5.c`).

## Main results

`Represents.append`: what the state stands for after one more piece.
`finish_pieces`: the digest is that of RFC 1321 for all pieces together.
-/
namespace Lcfg

namespace Md5

open BlockStream (absorb)

/-! ## Blocks -/

/-- The four words of a digest buffer. -/
structure Registers where
  a : UInt32
  b : UInt32
  c : UInt32
  d : UInt32
deriving DecidableEq

def rotateLeft (x n : UInt32) : UInt32 := (x <<< n) ||| (x >>> (32 - n))

def F (x y z : UInt32) : UInt32 := (x &&& y) ||| (~~~x &&& z)

def G (x y z : UInt32) : UInt32 := (x &&& z) ||| (y &&& ~~~z)

def H (x y z : UInt32) : UInt32 := x ^^^ y ^^^ z

def I (x y z : UInt32) : UInt32 := y ^^^ (x ||| ~~~z)

/-- One `SET`; the next one is for the registers moved on by one. -/
def set (f : UInt32 → UInt32 → UInt32 → UInt32) (X : List UInt32) (r : Registers)
    (row : Nat × UInt32 × UInt32) : Registers :=
  let t := r.a + f r.b r.c r.d + X.getD row.1 0 + row.2.2
  { a := r.d, b := rotateLeft t row.2.1 + r.b, c := r.b, d := r.c }

def round1 : List (Nat × UInt32 × UInt32) :=
  [(0, 7, 0xd76aa478), (1, 12, 0xe8c7b756), (2, 17, 0x242070db), (3, 22, 0xc1bdceee),
   (4, 7, 0xf57c0faf), (5, 12, 0x4787c62a), (6, 17, 0xa8304613), (7, 22, 0xfd469501),
   (8, 7, 0x698098d8), (9, 12, 0x8b44f7af), (10, 17, 0xffff5bb1), (11, 22, 0x895cd7be),
   (12, 7, 0x6b901122), (13, 12, 0xfd987193), (14, 17, 0xa679438e), (15, 22, 0x49b40821)]

def round2 : List (Nat × UInt32 × UInt32) :=
  [(1, 5, 0xf61e2562), (6, 9, 0xc040b340), (11, 14, 0x265e5a51), (0, 20, 0xe9b6c7aa),
   (5, 5, 0xd62f105d), (10, 9, 0x02441453), (15, 14, 0xd8a1e681), (4, 20, 0xe7d3fbc8),
   (9, 5, 0x21e1cde6), (14, 9, 0xc33707d6), (3, 14, 0xf4d50d87), (8, 20, 0x455a14ed),
   (13, 5, 0xa9e3e905), (2, 9, 0xfcefa3f8), (7, 14, 0x676f02d9), (12, 20, 0x8d2a4c8a)]

def round3 : List (Nat × UInt32 × UInt32) :=
  [(5, 4, 0xfffa3942), (8, 11, 0x8771f681), (11, 16, 0x6d9d6122), (14, 23, 0xfde5380c),
   (1, 4, 0xa4beea44), (4, 11, 0x4bdecfa9), (7, 16, 0xf6bb4b60), (10, 23, 0xbebfbc70),
   (13, 4, 0x289b7ec6), (0, 11, 0xeaa127fa), (3, 16, 0xd4ef3085), (6, 23, 0x04881d05),
   (9, 4, 0xd9d4d039), (12, 11, 0xe6db99e5), (15, 16, 0x1fa27cf8), (2, 23, 0xc4ac5665)]

def round4 : List (Nat × UInt32 × UInt32) :=
  [(0, 6, 0xf4292244), (7, 10, 0x432aff97), (14, 15, 0xab9423a7), (5, 21, 0xfc93a039),
   (12, 6, 0x655b59c3), (3, 10, 0x8f0ccc92), (10, 15, 0xffeff47d), (1, 21, 0x85845dd1),
   (8, 6, 0x6fa87e4f), (15, 10, 0xfe2ce6e0), (6, 15, 0xa3014314), (13, 21, 0x4e0811a1),
   (4, 6, 0xf7537e82), (11, 10, 0xbd3af235), (2, 15, 0x2ad7d2bb), (9, 21, 0xeb86d391)]

/-- The words of a block, the least significant byte first. -/
def words : List UInt8 → List UInt32
  | b0 :: b1 :: b2 :: b3 :: rest =>
    (b0.toUInt32 + (b1.toUInt32 <<< 8) + (b2.toUInt32 <<< 16) + (b3.toUInt32 <<< 24)) :: words rest
  | _ => []

/-- `lcfgutils_md5_process` -/
def process (abcd : Registers) (data : List UInt8) : Registers :=
  let X := words data
  let r := round1.foldl (set F X) abcd
  let r := round2.foldl (set G X) r
  let r := round3.foldl (set H X) r
  let r := round4.foldl (set I X) r
  { a := abcd.a + r.a, b := abcd.b + r.b, c := abcd.c + r.c, d := abcd.d + r.d }

/-! ## The state -/

/-- `md5_state_t`; the message length is in bits. -/
structure State where
  count0 : UInt32
  count1 : UInt32
  abcd : Registers
  buf : List UInt8

/-- The words with which a digest begins. -/
def initial : Registers := { a := 0x67452301, b := 0xefcdab89, c := 0x98badcfe, d := 0x10325476 }

/-- `lcfgutils_md5_init`; the buffer is not written to. -/
def init (buf : List UInt8) : State := { count0 := 0, count1 := 0, abcd := initial, buf }

/-- The position in the buffer. -/
def State.offset (pms : State) : Nat := ((pms.count0 >>> 3) &&& 63).toNat

/-- `memcpy( buf + offset, p, copy )` -/
def copyTo (buf : List UInt8) (offset : Nat) (p : List UInt8) : List UInt8 :=
  buf.take offset ++ p ++ buf.drop (offset + p.length)

/-- The full blocks, and the final partial block. -/
def appendBlocks (pms : State) (p : List UInt8) : State :=
  let (abcd, left) := absorb 64 process pms.abcd p
  { pms with abcd, buf := copyTo pms.buf 0 left }

/-- Update the message length. -/
def addLength (pms : State) (nbytes : Nat) : State :=
  let nbits := UInt32.ofNat (nbytes <<< 3)
  let count1 := pms.count1 + UInt32.ofNat (nbytes >>> 29)
  let count0 := pms.count0 + nbits
  { pms with count0, count1 := if count0 < nbits then count1 + 1 else count1 }

/-- `lcfgutils_md5_append` -/
def append (pms : State) (data : List UInt8) (nbytes : Int) : State :=
  if nbytes ≤ 0 then pms
  else
    let p := data.take nbytes.toNat
    let offset := pms.offset
    let pms := addLength pms nbytes.toNat
    -- an initial partial block
    if offset ≠ 0 then
      let copy := if offset + nbytes.toNat > 64 then 64 - offset else nbytes.toNat
      let pms := { pms with buf := copyTo pms.buf offset (p.take copy) }
      if offset + copy < 64 then pms
      else appendBlocks { pms with abcd := process pms.abcd pms.buf } (p.drop copy)
    else appendBlocks pms p

/-- The bytes of a word, the least significant one first. -/
def bytes (word : UInt32) : List UInt8 :=
  [word.toUInt8, (word >>> 8).toUInt8, (word >>> 16).toUInt8, (word >>> 24).toUInt8]

def digest (abcd : Registers) : List UInt8 :=
  bytes abcd.a ++ bytes abcd.b ++ bytes abcd.c ++ bytes abcd.d

def pad : List UInt8 := 0x80 :: List.replicate 63 0

/-- `lcfgutils_md5_finish` -/
def finish (pms : State) : List UInt8 :=
  let data := bytes pms.count0 ++ bytes pms.count1
  let done : UInt32 := pms.count0 >>> 3
  let missing : UInt32 := (55 - done) &&& 63
  let pms := append pms pad (missing.toNat + 1 : Nat)
  let pms := append pms data 8
  digest pms.abcd

/-- `lcfgutils_md5_hexdigest` -/
def hexdigest (digest : List UInt8) : List Char :=
  digest.flatMap fun b => [Nat.digitChar (b.toNat / 16), Nat.digitChar (b.toNat % 16)]

/-! ## The digest of a message -/

/-- The length of a message in bits, as the last eight bytes of what is digested. -/
def lengthBytes (length : Nat) : List UInt8 :=
  (List.range 8).map fun i => UInt8.ofNat (8 * length / 256 ^ i)

/-- A message is padded so that eight bytes are missing in the last block. -/
def padding (length : Nat) : List UInt8 := 0x80 :: List.replicate ((119 - length % 64) % 64) 0

/-- RFC 1321: the blocks of the padded message, with its length at the end, are taken in one
after another. -/
def md5 (message : List UInt8) : List UInt8 :=
  digest (absorb 64 process initial
    (message ++ padding message.length ++ lengthBytes message.length)).1


/-! ## What a state stands for -/

/-- The message so far: its length in bits, the blocks of it which have been taken in and, at
the beginning of the buffer, what has not. -/
structure Represents (pms : State) (message : List UInt8) : Prop where
  bits : pms.count0.toNat + 2 ^ 32 * pms.count1.toNat = 8 * message.length % 2 ^ 64
  abcd : pms.abcd = (absorb 64 process initial message).1
  size : pms.buf.length = 64
  kept : pms.buf.take (message.length % 64) = (absorb 64 process initial message).2

variable {pms : State} {message p : List UInt8}

theorem represents_init {buf : List UInt8} (size : buf.length = 64) :
    Represents (init buf) [] := by
  have nothing : absorb 64 process initial [] = (initial, []) := BlockStream.absorb_of_lt (by decide)
  constructor
  · rfl
  · rw [nothing]; rfl
  · exact size
  · rw [nothing]; rfl

theorem take_copyTo {buf : List UInt8} {offset : Nat} (inside : offset ≤ buf.length) :
    (copyTo buf offset p).take (offset + p.length) = buf.take offset ++ p := by
  have front : (buf.take offset ++ p).length = offset + p.length := by
    rw [List.length_append, List.length_take_of_le inside]
  rw [copyTo, ← front, List.take_left]

theorem length_copyTo {buf : List UInt8} {offset : Nat}
    (inside : offset + p.length ≤ buf.length) : (copyTo buf offset p).length = buf.length := by
  simp only [copyTo, List.length_append, List.length_take, List.length_drop]
  omega

theorem offset_eq (represents : Represents pms message) : pms.offset = message.length % 64 := by
  have bits := represents.bits
  have low : pms.offset = pms.count0.toNat / 8 % 64 := by
    rw [State.offset, UInt32.toNat_and, UInt32.toNat_shiftRight]
    change pms.count0.toNat >>> 3 &&& 2 ^ 6 - 1 = _
    rw [Nat.and_two_pow_sub_one_eq_mod, Nat.shiftRight_eq_div_pow]
  omega

/-- The second word takes a carry from the first one. -/
theorem addLength_bits {n : Nat} (small : n < 2 ^ 28)
    (bits : pms.count0.toNat + 2 ^ 32 * pms.count1.toNat = 8 * message.length % 2 ^ 64) :
    (addLength pms n).count0.toNat + 2 ^ 32 * (addLength pms n).count1.toNat =
      8 * (message.length + n) % 2 ^ 64 := by
  obtain ⟨nbits, shift⟩ : ∃ nbits, nbits = UInt32.ofNat (n <<< 3) := ⟨_, rfl⟩
  have shifted : nbits.toNat = 8 * n := by
    rw [shift]
    change (n <<< 3) % 2 ^ 32 = _
    rw [Nat.shiftLeft_eq]
    omega
  have same : pms.count1 + UInt32.ofNat (n >>> 29) = pms.count1 := by
    have nothing : n >>> 29 = 0 := by
      rw [Nat.shiftRight_eq_div_pow]
      omega
    rw [nothing]
    exact UInt32.add_zero _
  have low := pms.count0.toNat_lt
  have high := pms.count1.toNat_lt
  have sum : (pms.count0 + nbits).toNat = (pms.count0.toNat + 8 * n) % 2 ^ 32 := by
    rw [UInt32.toNat_add, shifted]
  have next : (pms.count1 + 1).toNat = (pms.count1.toNat + 1) % 2 ^ 32 := by
    rw [UInt32.toNat_add]
    rfl
  have carries : pms.count0 + nbits < nbits ↔ (pms.count0.toNat + 8 * n) % 2 ^ 32 < 8 * n := by
    rw [UInt32.lt_iff_toNat_lt, sum, shifted]
  simp only [addLength, ← shift, same, sum]
  by_cases carry : pms.count0 + nbits < nbits
  · rw [if_pos carry, next]
    have := carries.mp carry
    omega
  · rw [if_neg carry]
    have := mt carries.mpr carry
    omega

theorem Represents.appendBlocks
    (bits : pms.count0.toNat + 2 ^ 32 * pms.count1.toNat = 8 * message.length % 2 ^ 64)
    (size : pms.buf.length = 64)
    (rest : absorb 64 process initial message = absorb 64 process pms.abcd p) :
    Represents (appendBlocks pms p) message := by
  have kept : (absorb 64 process initial message).2.length = message.length % 64 :=
    BlockStream.length_rest (by decide) initial message
  rw [rest] at kept
  have short : (absorb 64 process pms.abcd p).2.length ≤ 64 := by omega
  constructor
  · exact bits
  · rw [rest]
    rfl
  · change (copyTo pms.buf 0 (absorb 64 process pms.abcd p).2).length = 64
    rw [length_copyTo (by omega), size]
  · change (copyTo pms.buf 0 (absorb 64 process pms.abcd p).2).take (message.length % 64) = _
    have front := take_copyTo (p := (absorb 64 process pms.abcd p).2) (Nat.zero_le pms.buf.length)
    rw [Nat.zero_add, kept, List.take_zero, List.nil_append] at front
    rw [front, rest]

private theorem Represents.append_pos {data : List UInt8} {n : Nat}
    (represents : Represents pms message) (some : 0 < n) (inside : n ≤ data.length)
    (small : n < 2 ^ 28) : Represents (append pms data n) (message ++ data.take n) := by
  obtain ⟨p, cut⟩ : ∃ p, p = data.take n := ⟨_, rfl⟩
  have length : p.length = n := by
    rw [cut]
    exact List.length_take_of_le inside
  have bits := addLength_bits small represents.bits
  rw [← length, ← List.length_append, length] at bits
  have size : (addLength pms n).buf.length = 64 := represents.size
  obtain ⟨offset, position⟩ : ∃ offset, offset = message.length % 64 := ⟨_, rfl⟩
  have front : (pms.buf.take offset).length = offset :=
    List.length_take_of_le (by have := represents.size; omega)
  have more : absorb 64 process initial (message ++ p) =
      absorb 64 process pms.abcd (pms.buf.take offset ++ p) := by
    rw [BlockStream.absorb_append (by decide), ← represents.abcd, ← represents.kept, position]
  simp only [Md5.append, offset_eq represents, Int.toNat_natCast, ← cut, ← position]
  rw [if_neg (by omega)]
  by_cases aligned : offset = 0
  · rw [if_neg (not_not.mpr aligned)]
    rw [aligned, List.take_zero, List.nil_append] at more
    exact Represents.appendBlocks bits size more
  rw [if_pos aligned]
  by_cases short : offset + n < 64
  · -- the piece does not fill the block
    have whole : p.take n = p := List.take_of_length_le (by omega)
    have partly : (pms.buf.take offset ++ p).length < 64 := by
      rw [List.length_append]
      omega
    rw [if_neg (by omega : ¬ offset + n > 64), if_pos short, whole]
    rw [BlockStream.absorb_of_lt partly] at more
    constructor
    · exact bits
    · rw [more]
      rfl
    · change (copyTo pms.buf offset p).length = 64
      rw [length_copyTo (by have := represents.size; omega), represents.size]
    · change (copyTo pms.buf offset p).take ((message ++ p).length % 64) = _
      have kept : (message ++ p).length % 64 = offset + p.length := by
        rw [List.length_append]
        omega
      rw [kept, take_copyTo (by have := represents.size; omega), more]
  · -- the block is filled first
    have copied : (if offset + n > 64 then 64 - offset else n) = 64 - offset := by
      split <;> omega
    have filled : (p.take (64 - offset)).length = 64 - offset :=
      List.length_take_of_le (by omega)
    have block : copyTo pms.buf offset (p.take (64 - offset)) =
        pms.buf.take offset ++ p.take (64 - offset) := by
      have beyond : pms.buf.length ≤ offset + (p.take (64 - offset)).length := by
        have := represents.size
        omega
      rw [copyTo, List.drop_of_length_le beyond, List.append_nil]
    have whole : (pms.buf.take offset ++ p.take (64 - offset)).length = 64 := by
      rw [List.length_append]
      omega
    rw [copied, if_neg (by omega)]
    apply Represents.appendBlocks
    · exact bits
    · change (copyTo pms.buf offset (p.take (64 - offset))).length = 64
      rw [block, whole]
    · change _ = absorb 64 process (process pms.abcd (copyTo pms.buf offset _)) _
      rw [more, block, ← BlockStream.absorb_block (by decide) whole, List.append_assoc,
        List.take_append_drop]

/-- What the state stands for after one more piece. -/
theorem Represents.append {data : List UInt8} {nbytes : Int} (represents : Represents pms message)
    (inside : nbytes ≤ data.length) (small : nbytes < 2 ^ 28) :
    Represents (append pms data nbytes) (message ++ data.take nbytes.toNat) := by
  rcases lt_or_ge 0 nbytes with positive | nothing
  · obtain ⟨n, rfl⟩ := Int.eq_ofNat_of_zero_le positive.le
    exact represents.append_pos (by omega) (by omega) (by omega)
  · rw [Md5.append, if_pos nothing, Int.toNat_of_nonpos nothing, List.take_zero, List.append_nil]
    exact represents

/-- The pieces are put together. -/
theorem represents_foldl {pieces : List (List UInt8)} (represents : Represents pms message)
    (small : ∀ piece ∈ pieces, piece.length < 2 ^ 28) :
    Represents (pieces.foldl (fun pms piece => append pms piece piece.length) pms)
      (message ++ pieces.flatten) := by
  induction pieces generalizing pms message with
  | nil => rwa [List.foldl_nil, List.flatten_nil, List.append_nil]
  | cons piece rest ih =>
    have here := small piece List.mem_cons_self
    have one := represents.append (Int.le_refl piece.length) (by omega)
    rw [Int.toNat_natCast, List.take_length] at one
    rw [List.foldl_cons, List.flatten_cons, ← List.append_assoc]
    exact ih one fun piece member => small piece (List.mem_cons_of_mem _ member)

/-! ## The digest -/

theorem ofNat_congr {m n : Nat} (same : m % 256 = n % 256) : UInt8.ofNat m = UInt8.ofNat n :=
  UInt8.toNat_inj.mp same

theorem toUInt8_shift (word : UInt32) {k : UInt32} (below : k.toNat < 32) :
    (word >>> k).toUInt8 = UInt8.ofNat (word.toNat / 2 ^ k.toNat) := by
  apply UInt8.toNat_inj.mp
  change (word >>> k).toNat % 256 = _
  rw [UInt32.toNat_shiftRight, Nat.mod_eq_of_lt below, Nat.shiftRight_eq_div_pow]
  rfl

theorem bytes_eq (word : UInt32) :
    bytes word = (List.range 4).map fun i => UInt8.ofNat (word.toNat / 256 ^ i) := by
  have first : word.toUInt8 = UInt8.ofNat (word.toNat / 1) := by
    rw [Nat.div_one]
    rfl
  rw [bytes, first, toUInt8_shift word (by decide), toUInt8_shift word (by decide),
    toUInt8_shift word (by decide)]
  rfl

theorem bytes_count {count0 count1 : UInt32} {length : Nat}
    (bits : count0.toNat + 2 ^ 32 * count1.toNat = 8 * length % 2 ^ 64) :
    bytes count0 ++ bytes count1 = lengthBytes length := by
  have low := count0.toNat_lt
  have halves : List.range 8 = List.range 4 ++ (List.range 4).map (4 + ·) := rfl
  rw [bytes_eq, bytes_eq, lengthBytes, halves, List.map_append, List.map_map]
  congr 1
  · apply List.map_congr_left
    intro i within
    have digit := List.mem_range.mp within
    apply ofNat_congr
    interval_cases i <;> omega
  · apply List.map_congr_left
    intro i within
    have digit := List.mem_range.mp within
    apply ofNat_congr
    change count1.toNat / 256 ^ i % 256 = 8 * length / 256 ^ (4 + i) % 256
    interval_cases i <;> omega

theorem pad_take (length : Nat) :
    pad.take ((119 - length % 64) % 64 + 1) = padding length := by
  have short : (119 - length % 64) % 64 ≤ 63 := by omega
  rw [pad, List.take_succ_cons, List.take_replicate, Nat.min_eq_left short]
  rfl

theorem missing_eq (represents : Represents pms message) :
    (((55 : UInt32) - pms.count0 >>> 3) &&& 63).toNat = (119 - message.length % 64) % 64 := by
  have bits := represents.bits
  have below : (pms.count0 >>> 3).toNat = pms.count0.toNat / 8 := by
    rw [UInt32.toNat_shiftRight]
    exact Nat.shiftRight_eq_div_pow ..
  rw [UInt32.toNat_and, UInt32.toNat_sub, below]
  change (2 ^ 32 - pms.count0.toNat / 8 + 55) % 2 ^ 32 &&& 2 ^ 6 - 1 = _
  rw [Nat.and_two_pow_sub_one_eq_mod]
  have low := pms.count0.toNat_lt
  omega

/-- The digest is that of the whole message. -/
theorem Represents.finish (represents : Represents pms message) : finish pms = md5 message := by
  obtain ⟨n, count⟩ : ∃ n, n = (119 - message.length % 64) % 64 + 1 := ⟨_, rfl⟩
  have short : (n : Int) ≤ pad.length := Int.ofNat_le.mpr (by rw [count]; change _ ≤ 64; omega)
  have padded : Represents (Md5.append pms pad n) (message ++ padding message.length) := by
    have here := represents.append short (by omega)
    rwa [Int.toNat_natCast, count, pad_take, ← count] at here
  have whole : Represents (Md5.append (Md5.append pms pad n) (lengthBytes message.length) 8)
      (message ++ padding message.length ++ lengthBytes message.length) :=
    padded.append (Int.le_refl 8) (by decide)
  simp only [Md5.finish, bytes_count represents.bits, missing_eq represents, ← count]
  rw [whole.abcd, md5]

/-- The message may come in any pieces. -/
theorem finish_pieces (buf : List UInt8) (pieces : List (List UInt8)) (size : buf.length = 64)
    (small : ∀ piece ∈ pieces, piece.length < 2 ^ 28) :
    finish (pieces.foldl (fun pms piece => append pms piece piece.length) (init buf)) =
      md5 pieces.flatten :=
  (represents_foldl (represents_init size) small).finish

theorem finish_abc : finish (append (append (init (List.replicate 64 0)) [97] 1) [98, 99] 2) =
    md5 [97, 98, 99] :=
  finish_pieces (List.replicate 64 0) [[97], [98, 99]] List.length_replicate (by decide)

example : hexdigest (md5 [97, 98, 99]) = "900150983cd24fb0d6963f7d28e17f72".toList := by
  decide +kernel

end Md5

end Lcfg
