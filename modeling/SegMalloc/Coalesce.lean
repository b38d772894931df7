import SegMalloc.FreeList

/-! Boundary-tag coalescing, heap extension and block splitting, as in `mm.c`.
`coalesceBlock` and `extendHeap` return the resulting block; they are partial only
through the mini-list walk of `deleteNormalOrMini`. -/
namespace SegMalloc.Coalesce
open Header Block FreeList

open State

/-- The last step of `coalesce_block`: the header after the merged block gets both flags
clear, the merged block being free and larger than 16 bytes. -/
def clearNextFlags (s : State) (block : Nat) : State :=
  let blockNext := findNext s block
  updateBlock s blockNext (getSize s blockNext) (getAlloc s blockNext) false false

/-- Merge the free `block` with its free neighbours and put the result on its list. -/
def coalesceBlock (s : State) (block : Nat) : Option (State × Nat) :=
  let blockNext := findNext s block
  let prevAlloc := getPrevAlloc s block
  let nextAlloc := getAlloc s blockNext
  if prevAlloc && nextAlloc then some (insertNormalOrMini s block, block)
  else
    let merged : Option (State × Nat) :=
      if !prevAlloc && nextAlloc then
        let blockPrev := findPrev s block
        let blockSize := getSize s block
        let blockPrevSize := getSize s blockPrev
        let prevPrevAlloc := getPrevAlloc s blockPrev
        let prevPrevMini := getPrevMini s blockPrev
        (deleteNormalOrMini s blockPrev).map fun s =>
          let s := writeBlock s blockPrev (usize (blockPrevSize + blockSize)) false
            prevPrevAlloc prevPrevMini
          (insertNormalOrMini s blockPrev, blockPrev)
      else if prevAlloc && !nextAlloc then
        let blockSize := getSize s block
        let blockNextSize := getSize s blockNext
        let prevAlloc := getPrevAlloc s block
        let prevMini := getPrevMini s block
        (deleteNormalOrMini s blockNext).map fun s =>
          let s := writeBlock s block (usize (blockSize + blockNextSize)) false prevAlloc prevMini
          (insertNormalOrMini s block, block)
      else
        let blockPrev := findPrev s block
        let blockSize := getSize s block
        let blockPrevSize := getSize s blockPrev
        let blockNextSize := getSize s blockNext
        let prevPrevAlloc := getPrevAlloc s blockPrev
        let prevPrevMini := getPrevMini s blockPrev
        (deleteNormalOrMini s blockNext).bind fun s =>
          (deleteNormalOrMini s blockPrev).map fun s =>
            let s := writeBlock s blockPrev (usize (blockPrevSize + blockSize + blockNextSize))
              false prevPrevAlloc prevPrevMini
            (insertNormalOrMini s blockPrev, blockPrev)
    merged.map fun r => (clearNextFlags r.1 r.2, r.2)

/-- Grow the arena by `size` bytes rounded to 16: the old epilogue becomes the header
of a free block, a new epilogue follows, and the block is coalesced. The source's
`true ? size == min_block_size : false` is kept as `cond`. -/
def extendHeap (ok : Nat → Bool) (s : State) (size : Nat) : Option (State × Nat) :=
  let size := roundUp size dsize
  match memSbrk ok s size with
  | none => some (s, 0)
  | some (s, bp) =>
    let block := payloadToHeader bp
    let prevAlloc := getPrevAlloc s block
    let prevMini := getPrevMini s block
    let s := writeBlock s block size false prevAlloc prevMini
    let blockNext := findNext s block
    let prevMini := cond true (size == minBlockSize) false
    let s := writeEpilogue s blockNext false prevMini
    coalesceBlock s block

/-- Cut an allocated `block` down to `asize` bytes when at least 16 bytes remain,
and free the remainder. -/
def splitBlock (s : State) (block asize : Nat) : State :=
  let blockSize := getSize s block
  if usub blockSize asize ≥ minBlockSize then
    let prevAlloc := getPrevAlloc s block
    let prevMini := getPrevMini s block
    let s := writeBlock s block asize true prevAlloc prevMini
    let blockNext := findNext s block
    let prevMini := cond true (asize == minBlockSize) false
    let s := writeBlock s blockNext (usub blockSize asize) false true prevMini
    let blockNextNext := findNext s blockNext
    let blockNextNextSize := getSize s blockNextNext
    let blockNextNextAlloc := getAlloc s blockNextNext
    let prevMini := cond true (usub blockSize asize == minBlockSize) false
    let s := updateBlock s blockNextNext blockNextNextSize blockNextNextAlloc false prevMini
    insertNormalOrMini s blockNext
  else s

end SegMalloc.Coalesce
