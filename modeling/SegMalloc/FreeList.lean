import SegMalloc.Block

/-! The segregated free lists of `mm.c`. Lists 1..14 are doubly linked through
`free.prev` (offset 8) and `free.next` (offset 16); list 0 holds the 16-byte
blocks, singly linked through `next_mini` (offset 8). Inserts push at the head;
the mini delete walks the list to find the predecessor. -/
namespace SegMalloc.FreeList
open Header Block

open State

/-- `block->free.prev = p`. -/
def setFreePrev (s : State) (block p : Nat) : State := s.setWord (block + 8) (UInt64.ofNat p)

/-- `block->free.next = p`. -/
def setFreeNext (s : State) (block p : Nat) : State := s.setWord (block + 16) (UInt64.ofNat p)

/-- `block->mini_free.next_mini = p`. -/
def setNextMini (s : State) (block p : Nat) : State := s.setWord (block + 8) (UInt64.ofNat p)

def insertToFreeList (s : State) (block : Nat) : State :=
  if block = 0 then s
  else
    let seg := getListIndex (getSize s block)
    let head := s.segList seg
    if head = 0 then
      let s := s.setHead seg block
      let s := setFreePrev s block 0
      setFreeNext s block 0
    else
      let s := setFreePrev s block 0
      let s := setFreeNext s block head
      let s := setFreePrev s head block
      s.setHead seg block

def deleteFromFreeList (s : State) (block : Nat) : State :=
  if block = 0 then s
  else
    let seg := getListIndex (getSize s block)
    let head := s.segList seg
    if head = block then
      let next := freeNext s block
      let s := s.setHead seg next
      if next ≠ 0 then setFreePrev s next 0 else s
    else
      let prev := freePrev s block
      let next := freeNext s block
      let s := setFreeNext s prev next
      if next ≠ 0 then setFreePrev s next prev else s

def insertToMiniFreeList (s : State) (block : Nat) : State :=
  if block = 0 then s
  else
    let head := s.segList 0
    if head = 0 then
      let s := s.setHead 0 block
      setNextMini s block 0
    else
      let s := setNextMini s block head
      s.setHead 0 block

/-- The loop of `delete_from_mini_free_list`: advance `(prev, next)` along `next_mini`
until `next = block` and return `prev`. Each `next` is a 64-bit word and nothing is written
during the loop, so `2^64` values of `next` without `block` include a repeated one, after which
the run cycles and never ends; `fuel` counts the values and `none` is that divergence. -/
def miniWalk (s : State) (block : Nat) : Nat → Nat → Nat → Option Nat
  | 0, _, _ => none
  | fuel + 1, prev, next =>
    if next = block then some prev else miniWalk s block fuel next (nextMini s next)

def deleteFromMiniFreeList (s : State) (block : Nat) : Option State :=
  if block = 0 then some s
  else
    let head := s.segList 0
    if head = 0 then some s
    else if head = block then some (s.setHead 0 (nextMini s block))
    else
      (miniWalk s block (2 ^ 64) head (nextMini s head)).map fun prev =>
        setNextMini s prev (nextMini s block)

def insertNormalOrMini (s : State) (block : Nat) : State :=
  if getSize s block = minBlockSize then insertToMiniFreeList s block
  else insertToFreeList s block

def deleteNormalOrMini (s : State) (block : Nat) : Option State :=
  if getSize s block = minBlockSize then deleteFromMiniFreeList s block
  else some (deleteFromFreeList s block)

end SegMalloc.FreeList
