import SegMalloc.FindFit

/-! The public interface of `mm.c`: `mm_init`, `malloc`, `free`, `realloc` and `calloc`.
Each takes the arena's answers `ok` to its `mem_sbrk` requests; a result is the new
state with the returned pointer (`0` is `NULL`), and `none` only where the mini-list
walk diverges. -/
namespace SegMalloc.Api
open Memory Header Block FreeList Coalesce FindFit

open State

/-- Clear the list heads, write the prologue and epilogue words and extend the heap by
`chunksize` bytes. -/
def mmInit (ok : Nat → Bool) (s : State) : Option (State × Bool) :=
  let s := { s with segList := fun i => if i < segListNum then 0 else s.segList i }
  match memSbrk ok s (2 * wsize) with
  | none => some (s, false)
  | some (s, start) =>
    let s := s.setWord start (pack 0 true true false)
    let s := s.setWord (start + wsize) (pack 0 true true false)
    let s := { s with heapStart := start + wsize }
    (extendHeap ok s chunksize).map fun r => (r.1, r.2 ≠ 0)

def malloc (ok : Nat → Bool) (s : State) (size : Nat) : Option (State × Nat) := do
  let (s, inited) ← if s.heapStart = 0 then mmInit ok s else pure (s, true)
  if !inited then return (s, 0)
  if size = 0 then return (s, 0)
  let asize := if size ≤ wsize then minBlockSize else roundUp (usize (size + wsize)) dsize
  let block := findFit s asize
  let (s, block) ← if block = 0 then extendHeap ok s (Header.max asize chunksize)
    else pure (s, block)
  if block = 0 then return (s, 0)
  let s ← deleteNormalOrMini s block
  let blockSize := getSize s block
  let prevAlloc := getPrevAlloc s block
  let prevMini := getPrevMini s block
  let s := writeBlock s block blockSize true prevAlloc prevMini
  let blockNext := findNext s block
  let blockNextSize := getSize s blockNext
  let blockNextAlloc := getAlloc s blockNext
  let blockNextPrevMini := cond true (blockSize == minBlockSize) false
  let s := updateBlock s blockNext blockNextSize blockNextAlloc true blockNextPrevMini
  let s := splitBlock s block asize
  return (s, headerToPayload block)

def free (s : State) (bp : Nat) : Option State :=
  if bp = 0 then some s
  else
    let block := payloadToHeader bp
    let size := getSize s block
    let prevAlloc := getPrevAlloc s block
    let prevMini := getPrevMini s block
    let s := writeBlock s block size false prevAlloc prevMini
    let blockNext := findNext s block
    let blockNextSize := getSize s blockNext
    let blockNextAlloc := getAlloc s blockNext
    let blockNextPrevMini := cond true (size == minBlockSize) false
    let s := updateBlock s blockNext blockNextSize blockNextAlloc false blockNextPrevMini
    (coalesceBlock s block).map Prod.fst

def realloc (ok : Nat → Bool) (s : State) (ptr size : Nat) : Option (State × Nat) := do
  let block := payloadToHeader ptr
  if size = 0 then
    let s ← free s ptr
    return (s, 0)
  if ptr = 0 then malloc ok s size
  else
    let (s, newptr) ← malloc ok s size
    if newptr = 0 then return (s, 0)
    let copysize := getPayloadSize s block
    let copysize := if size < copysize then size else copysize
    let s := { s with mem := memcpy s.mem newptr ptr copysize }
    let s ← free s ptr
    return (s, newptr)

def calloc (ok : Nat → Bool) (s : State) (elements size : Nat) : Option (State × Nat) := do
  let asize := usize (elements * size)
  if elements = 0 then return (s, 0)
  if asize / elements ≠ size then return (s, 0)
  let (s, bp) ← malloc ok s asize
  if bp = 0 then return (s, 0)
  return ({ s with mem := memset s.mem bp 0 asize }, bp)

end SegMalloc.Api
