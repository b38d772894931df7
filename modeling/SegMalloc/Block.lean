import SegMalloc.Header

/-! The allocator's global state and the block navigator of `mm.c`: header
accessors, the footer and payload arithmetic, `find_next`/`find_prev`, the
three header writers, and the arena's `mem_sbrk`. Block pointers are byte
addresses of headers; `0` is `NULL`. -/
namespace SegMalloc.Block
open Memory Header

/-- The address space, the arena `[lo, brk)`, `heap_start`, and the list heads
`segregated_free_list[0..14]` (no other index is ever read or written). -/
structure State where
  mem : Mem
  lo : Nat
  brk : Nat
  heapStart : Nat
  segList : Nat → Nat

namespace State

def setWord (s : State) (a : Nat) (w : UInt64) : State := { s with mem := storeWord s.mem a w }

def setHead (s : State) (i p : Nat) : State := { s with segList := Function.update s.segList i p }

@[simp] theorem setWord_lo (s : State) (a : Nat) (w : UInt64) : (s.setWord a w).lo = s.lo := rfl
@[simp] theorem setWord_brk (s : State) (a : Nat) (w : UInt64) : (s.setWord a w).brk = s.brk := rfl
@[simp] theorem setWord_heapStart (s : State) (a : Nat) (w : UInt64) :
    (s.setWord a w).heapStart = s.heapStart := rfl
@[simp] theorem setWord_segList (s : State) (a : Nat) (w : UInt64) :
    (s.setWord a w).segList = s.segList := rfl
@[simp] theorem setWord_mem (s : State) (a : Nat) (w : UInt64) :
    (s.setWord a w).mem = storeWord s.mem a w := rfl
@[simp] theorem setHead_lo (s : State) (i p : Nat) : (s.setHead i p).lo = s.lo := rfl
@[simp] theorem setHead_brk (s : State) (i p : Nat) : (s.setHead i p).brk = s.brk := rfl
@[simp] theorem setHead_heapStart (s : State) (i p : Nat) :
    (s.setHead i p).heapStart = s.heapStart := rfl
@[simp] theorem setHead_mem (s : State) (i p : Nat) : (s.setHead i p).mem = s.mem := rfl
@[simp] theorem setHead_segList (s : State) (i p : Nat) :
    (s.setHead i p).segList = Function.update s.segList i p := rfl

end State

open State

def getSize (s : State) (block : Nat) : Nat := extractSize (loadWord s.mem block)

def payloadToHeader (bp : Nat) : Nat := bp - 8

def headerToPayload (block : Nat) : Nat := block + 8

def headerToFooter (s : State) (block : Nat) : Nat := block + 8 + getSize s block - dsize

def footerToHeader (s : State) (footer : Nat) : Nat :=
  footer + wsize - extractSize (loadWord s.mem footer)

def getPayloadSize (s : State) (block : Nat) : Nat := usub (getSize s block) wsize

def getAlloc (s : State) (block : Nat) : Bool := extractAlloc (loadWord s.mem block)

def getPrevAlloc (s : State) (block : Nat) : Bool := extractPrevAlloc (loadWord s.mem block)

def getPrevMini (s : State) (block : Nat) : Bool := extractPrevMini (loadWord s.mem block)

def writeEpilogue (s : State) (block : Nat) (prevAlloc prevMini : Bool) : State :=
  s.setWord block (pack 0 true prevAlloc prevMini)

/-- The header, and for a free block of more than 16 bytes also the footer. The
source's `header_to_end` call in the other branch has no effect. -/
def writeBlock (s : State) (block size : Nat) (alloc prevAlloc prevMini : Bool) : State :=
  let s := s.setWord block (pack size alloc prevAlloc prevMini)
  if !alloc && size > minBlockSize then
    s.setWord (headerToFooter s block) (pack size alloc prevAlloc prevMini)
  else s

def findNext (s : State) (block : Nat) : Nat := block + getSize s block

def findPrevFooter (block : Nat) : Nat := block - wsize

def findHeader (block : Nat) : Nat := block

def findPrev (s : State) (block : Nat) : Nat :=
  if getPrevMini s block then findHeader block - minBlockSize
  else
    let footerp := findPrevFooter block
    if extractSize (loadWord s.mem footerp) = 0 then 0 else footerToHeader s footerp

def updateBlock (s : State) (block size : Nat) (alloc prevAlloc prevMini : Bool) : State :=
  s.setWord block (pack size alloc prevAlloc prevMini)

/-- `block->mini_free.next_mini`, the link of a free 16-byte block. -/
def nextMini (s : State) (block : Nat) : Nat := (loadWord s.mem (block + 8)).toNat

/-- `block->free.prev`. -/
def freePrev (s : State) (block : Nat) : Nat := (loadWord s.mem (block + 8)).toNat

/-- `block->free.next`. -/
def freeNext (s : State) (block : Nat) : Nat := (loadWord s.mem (block + 16)).toNat

/-- Modelled from the spec: the arena's `extend(n)`. When the host grants the request
(`ok incr`) the arena grows at its high end by exactly `incr` bytes, never past the
64-bit address space, and the old break is returned; otherwise `none` stands for the
source's `(void *)-1`. -/
def memSbrk (ok : Nat → Bool) (s : State) (incr : Nat) : Option (State × Nat) :=
  if ok incr ∧ s.brk + incr ≤ 2 ^ 64 then some ({ s with brk := s.brk + incr }, s.brk) else none

end SegMalloc.Block
