import SegMalloc.Memory

/-! The constants of `mm.c`, its `size_t` arithmetic, the size-class index and
the packed header word: `pack` stores a 16-aligned size with three flag bits,
and the `extract*` accessors read them back. -/
namespace SegMalloc.Header
open Memory

def segListNum : Nat := 15
def searchLimit : Nat := 10
def closeEnough : Nat := 46

def sListMini : Nat := 32
def sList1 : Nat := 64
def sList2 : Nat := 128
def sList3 : Nat := 256
def sList4 : Nat := 512
def sList5 : Nat := 1024
def sList6 : Nat := 2048
def sList7 : Nat := 4096
def sList8 : Nat := 8192
def sList9 : Nat := 16384
def sList10 : Nat := 32768
def sList11 : Nat := 65536
def sList12 : Nat := 131072
def sList13 : Nat := 262144

def wsize : Nat := 8
def dsize : Nat := 2 * wsize
def minBlockSize : Nat := dsize
def chunksize : Nat := 2 ^ 11

def allocMask : UInt64 := 0x1
def prevAllocMask : UInt64 := 0x2
def prevMiniMask : UInt64 := 0x4
def sizeMask : UInt64 := ~~~0xF

/-- `size_t` arithmetic is modulo `2^64`. -/
def usize (n : Nat) : Nat := n % 2 ^ 64

/-- `size_t` subtraction, wrapping below zero. -/
def usub (a b : Nat) : Nat := usize (a + 2 ^ 64 - b)

/-- `max` of the source. -/
protected def max (x y : Nat) : Nat := if x > y then x else y

def roundUp (size n : Nat) : Nat := usize (n * (usize (size + (n - 1)) / n))

def pack (size : Nat) (alloc prevAlloc prevMini : Bool) : UInt64 :=
  let word := UInt64.ofNat size
  let word := if alloc then word ||| allocMask else word
  let word := if prevAlloc then word ||| prevAllocMask else word
  if prevMini then word ||| prevMiniMask else word

def extractSize (word : UInt64) : Nat := (word &&& sizeMask).toNat

def extractAlloc (word : UInt64) : Bool := (word &&& allocMask) != 0

def extractPrevAlloc (word : UInt64) : Bool := (word &&& prevAllocMask) != 0

def extractPrevMini (word : UInt64) : Bool := (word &&& prevMiniMask) != 0

/-- The free list for a block of `size` bytes, by binary search over the class bounds. -/
def getListIndex (size : Nat) : Nat :=
  if size ≤ sList7 then
    if size ≤ sList3 then
      if size ≤ sList1 then
        if size < sListMini then 0 else 1
      else
        if size ≤ sList2 then 2 else 3
    else
      if size ≤ sList5 then
        if size ≤ sList4 then 4 else 5
      else
        if size ≤ sList6 then 6 else 7
  else
    if size ≤ sList11 then
      if size ≤ sList9 then
        if size ≤ sList8 then 8 else 9
      else
        if size ≤ sList10 then 10 else 11
    else
      if size ≤ sList13 then
        if size ≤ sList12 then 12 else 13
      else 14

/-! ## Arithmetic -/

@[simp] theorem minBlockSize_eq : minBlockSize = 16 := rfl

theorem usize_of_lt {n : Nat} (h : n < 2 ^ 64) : usize n = n := Nat.mod_eq_of_lt h

theorem usub_of_le {a b : Nat} (h : b ≤ a) (ha : a < 2 ^ 64) : usub a b = a - b := by
  unfold usub usize
  rw [show a + 2 ^ 64 - b = a - b + 2 ^ 64 by omega, Nat.add_mod_right, Nat.mod_eq_of_lt (by omega)]

theorem roundUp_eq {size : Nat} (h : size + 15 < 2 ^ 64) :
    roundUp size dsize = (size + 15) / 16 * 16 := by
  have h₁ : usize (size + (dsize - 1)) = size + 15 := usize_of_lt (by unfold dsize wsize; omega)
  unfold roundUp
  rw [h₁, usize_of_lt (by unfold dsize wsize; omega)]
  unfold dsize wsize
  omega

theorem getListIndex_le (size : Nat) : getListIndex size ≤ 14 := by
  unfold getListIndex; split_ifs <;> omega

private theorem sList_values : sListMini = 32 ∧ sList1 = 64 ∧ sList2 = 128 ∧ sList3 = 256 ∧
    sList4 = 512 ∧ sList5 = 1024 ∧ sList6 = 2048 ∧ sList7 = 4096 ∧ sList8 = 8192 ∧
    sList9 = 16384 ∧ sList10 = 32768 ∧ sList11 = 65536 ∧ sList12 = 131072 ∧ sList13 = 262144 :=
  ⟨rfl, rfl, rfl, rfl, rfl, rfl, rfl, rfl, rfl, rfl, rfl, rfl, rfl, rfl⟩

/-- The number of class bounds below `size`: each term is monotone in `size`. -/
def classCount (size : Nat) : Nat :=
  (if 31 < size then 1 else 0) + (if 64 < size then 1 else 0) + (if 128 < size then 1 else 0) +
  (if 256 < size then 1 else 0) + (if 512 < size then 1 else 0) + (if 1024 < size then 1 else 0) +
  (if 2048 < size then 1 else 0) + (if 4096 < size then 1 else 0) +
  (if 8192 < size then 1 else 0) + (if 16384 < size then 1 else 0) +
  (if 32768 < size then 1 else 0) + (if 65536 < size then 1 else 0) +
  (if 131072 < size then 1 else 0) + (if 262144 < size then 1 else 0)

theorem getListIndex_eq_classCount (size : Nat) : getListIndex size = classCount size := by
  obtain ⟨_, _, _, _, _, _, _, _, _, _, _, _, _, _⟩ := sList_values
  unfold getListIndex
  split_ifs <;> unfold classCount <;> simp (disch := omega) only [if_pos, if_neg]

theorem getListIndex_mono {a b : Nat} (h : a ≤ b) : getListIndex a ≤ getListIndex b := by
  rw [getListIndex_eq_classCount, getListIndex_eq_classCount]
  have t : ∀ c, (if c < a then 1 else 0) ≤ (if c < b then 1 else 0) := fun c => by
    split_ifs <;> omega
  unfold classCount
  apply_rules [Nat.add_le_add]

theorem getListIndex_eq_zero_iff (size : Nat) : getListIndex size = 0 ↔ size < 32 := by
  have h31 : getListIndex 31 = 0 := by decide
  have h32 : getListIndex 32 = 1 := by decide
  constructor
  · intro h
    by_contra hc
    have := getListIndex_mono (show 32 ≤ size by omega)
    omega
  · intro h
    have := getListIndex_mono (show size ≤ 31 by omega)
    omega

/-! ## The header codec -/

theorem toNat_or (a b : UInt64) : (a ||| b).toNat = a.toNat ||| b.toNat := BitVec.toNat_or _ _
theorem toNat_and (a b : UInt64) : (a &&& b).toNat = a.toNat &&& b.toNat := BitVec.toNat_and _ _

private theorem or_low {q r c : Nat} (hr : r < 16) (hc : c < 16) :
    (16 * q + r) ||| c = 16 * q + (r ||| c) := by
  have h1 := Nat.mul_add_lt_is_or (i := 4) hr q
  have h2 := Nat.mul_add_lt_is_or (i := 4) (Nat.or_lt_two_pow (n := 4) hr hc) q
  rw [show (2:Nat) ^ 4 = 16 by norm_num] at h1 h2
  rw [h1, h2, Nat.or_assoc]

/-- The three flag bits of a header as a number below 8. -/
def flagBits (alloc prevAlloc prevMini : Bool) : Nat :=
  alloc.toNat + 2 * prevAlloc.toNat + 4 * prevMini.toNat

theorem toNat_pack {size : Nat} (h16 : size % 16 = 0) (hs : size < 2 ^ 64) (a pa pm : Bool) :
    (pack size a pa pm).toNat = size + flagBits a pa pm := by
  obtain ⟨q, rfl⟩ : ∃ q, size = 16 * q := ⟨size / 16, by omega⟩
  have hw : (UInt64.ofNat (16 * q)).toNat = 16 * q + 0 := by rw [uint64_toNat_ofNat, Nat.mod_eq_of_lt hs]; rfl
  cases a <;> cases pa <;> cases pm <;>
    simp (disch := decide) only [pack, toNat_or, hw, allocMask, prevAllocMask, prevMiniMask,
      or_low, Bool.false_eq_true, ite_true, ite_false, flagBits] <;> rfl

theorem extractSize_eq (w : UInt64) : extractSize w = w.toNat / 16 * 16 := by
  apply Nat.eq_of_testBit_eq
  intro i
  have hx := UInt64.toNat_lt w
  have hm : (sizeMask).toNat = 2 ^ 4 * (2 ^ 60 - 1) := by decide
  have hd : w.toNat / 16 * 16 = 2 ^ 4 * (w.toNat >>> 4) := by rw [Nat.shiftRight_eq_div_pow]; ring
  rw [extractSize, toNat_and, Nat.testBit_and, hm, hd, Nat.testBit_mul_pow_two,
    Nat.testBit_mul_pow_two, Nat.testBit_two_pow_sub_one, Nat.testBit_shiftRight]
  by_cases h4 : 4 ≤ i
  · by_cases h64 : i < 64
    · simp [h4, h64, show 4 + (i - 4) = i by omega, show i - 4 < 60 by omega]
    · have : w.toNat.testBit i = false :=
        Nat.testBit_lt_two_pow (lt_of_lt_of_le hx (Nat.pow_le_pow_right (by norm_num) (by omega)))
      simp [h4, show 4 + (i - 4) = i by omega, this]
  · simp [h4]

private theorem flag_ne_zero (w : UInt64) (k : Nat) (hk : k < 64) :
    ((w &&& UInt64.ofNat (2 ^ k)) != 0) = w.toNat.testBit k := by
  have hx : (UInt64.ofNat (2 ^ k)).toNat = 2 ^ k := by
    rw [uint64_toNat_ofNat, Nat.mod_eq_of_lt (Nat.pow_lt_pow_right (by norm_num) hk)]
  have key : (w.toNat &&& 2 ^ k = 0) ↔ w.toNat.testBit k = false := by
    constructor
    · intro h; have := congrArg (fun y => y.testBit k) h; simpa [Nat.testBit_two_pow] using this
    · intro h; apply Nat.eq_of_testBit_eq; intro j
      by_cases hj : k = j
      · subst hj; simp [h]
      · simp [Nat.testBit_two_pow, hj]
  have h0 : (w &&& UInt64.ofNat (2 ^ k) = 0) ↔ (w.toNat &&& 2 ^ k = 0) := by
    constructor
    · intro h; rw [← hx, ← toNat_and, h]; rfl
    · intro h; apply UInt64.toNat.inj; rw [toNat_and, hx, h]; rfl
  cases hb : w.toNat.testBit k <;> simp_all

theorem extractAlloc_eq (w : UInt64) : extractAlloc w = w.toNat.testBit 0 := flag_ne_zero w 0 (by norm_num)
theorem extractPrevAlloc_eq (w : UInt64) : extractPrevAlloc w = w.toNat.testBit 1 :=
  flag_ne_zero w 1 (by norm_num)
theorem extractPrevMini_eq (w : UInt64) : extractPrevMini w = w.toNat.testBit 2 :=
  flag_ne_zero w 2 (by norm_num)

theorem flagBits_lt (a pa pm : Bool) : flagBits a pa pm < 8 := by
  cases a <;> cases pa <;> cases pm <;> decide

theorem extractSize_lt (w : UInt64) : extractSize w < 2 ^ 64 := by
  have := UInt64.toNat_lt w; rw [extractSize_eq]; omega

section Codec

variable {size : Nat} (h16 : size % 16 = 0) (hs : size < 2 ^ 64) (a pa pm : Bool)
include h16 hs

private theorem testBit_pack {k : Nat} (hk : k < 4) :
    (pack size a pa pm).toNat.testBit k = (flagBits a pa pm).testBit k := by
  rw [toNat_pack h16 hs]
  obtain ⟨q, rfl⟩ : ∃ q, size = 2 ^ 4 * q := ⟨size / 16, by omega⟩
  rw [Nat.testBit_mul_pow_two_add q (by have := flagBits_lt a pa pm; omega), if_pos hk]

@[simp] theorem extractSize_pack : extractSize (pack size a pa pm) = size := by
  have := flagBits_lt a pa pm
  rw [extractSize_eq, toNat_pack h16 hs]; omega

@[simp] theorem extractAlloc_pack : extractAlloc (pack size a pa pm) = a := by
  rw [extractAlloc_eq, testBit_pack h16 hs a pa pm (by norm_num)]
  cases a <;> cases pa <;> cases pm <;> decide

@[simp] theorem extractPrevAlloc_pack : extractPrevAlloc (pack size a pa pm) = pa := by
  rw [extractPrevAlloc_eq, testBit_pack h16 hs a pa pm (by norm_num)]
  cases a <;> cases pa <;> cases pm <;> decide

@[simp] theorem extractPrevMini_pack : extractPrevMini (pack size a pa pm) = pm := by
  rw [extractPrevMini_eq, testBit_pack h16 hs a pa pm (by norm_num)]
  cases a <;> cases pa <;> cases pm <;> decide

/-- A header word reads back as the size and the three flags it was packed from. -/
theorem pack_roundtrip :
    extractSize (pack size a pa pm) = size ∧ extractAlloc (pack size a pa pm) = a ∧
      extractPrevAlloc (pack size a pa pm) = pa ∧ extractPrevMini (pack size a pa pm) = pm :=
  ⟨extractSize_pack h16 hs a pa pm, extractAlloc_pack h16 hs a pa pm,
    extractPrevAlloc_pack h16 hs a pa pm, extractPrevMini_pack h16 hs a pa pm⟩

end Codec

/-- The largest block size with the flags of an allocated block after a free mini block. -/
theorem pack_roundtrip_max : (2 ^ 64 - 16) % 16 = 0 ∧ 2 ^ 64 - 16 < 2 ^ 64 ∧
    extractSize (pack (2 ^ 64 - 16) true false true) = 2 ^ 64 - 16 ∧
    extractAlloc (pack (2 ^ 64 - 16) true false true) = true ∧
    extractPrevAlloc (pack (2 ^ 64 - 16) true false true) = false ∧
    extractPrevMini (pack (2 ^ 64 - 16) true false true) = true :=
  ⟨by norm_num, by norm_num, pack_roundtrip (by norm_num) (by norm_num) true false true⟩

end SegMalloc.Header
