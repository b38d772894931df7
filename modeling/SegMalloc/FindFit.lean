import SegMalloc.Coalesce

/-! The bounded best-fit search of `mm.c`. The scan starts at the size's own list,
keeps the block with the least surplus, returns at once when the surplus is at most
`CLOSE_ENOUGH`, and leaves a list once its counter passes `SEARCH_LIMIT`; the counter
carries over from list to list and is reset only by that break. -/
namespace SegMalloc.FindFit
open Header Block

/-- How one list's scan ends: a close-enough block, or the best block so far, the
least surplus so far and the counter. The counter `cont` is kept as
`rem = SEARCH_LIMIT + 1 - cont`, the steps left before the break, so that the loop
is structural. -/
inductive Scan
  | found (block : Nat)
  | next (best minDiff rem : Nat)
  deriving DecidableEq, Repr

/-- The block a scan of one list ends with. -/
def Scan.best : Scan → Nat
  | .found b => b
  | .next b _ _ => b

/-- The `while` loop over one list, from `block`. -/
def scanBucket (s : State) (asize : Nat) (rem block best minDiff : Nat) : Scan :=
  if block = 0 then .next best minDiff rem
  else
    let fits := decide (getSize s block ≥ asize)
    let diff := getSize s block - asize
    let best' := if fits && decide (diff < minDiff) then block else best
    let minDiff' := if fits && decide (diff < minDiff) then diff else minDiff
    if fits && decide (minDiff' ≤ closeEnough) then .found best'
    else
      match rem with
      | 0 => .next best' minDiff' (searchLimit + 1)
      | rem + 1 => scanBucket s asize rem (freeNext s block) best' minDiff'

/-- The `for` loop over the lists `is`. -/
def scanBuckets (s : State) (asize : Nat) : List Nat → Nat → Nat → Nat → Nat
  | [], best, _, _ => best
  | i :: is, best, minDiff, rem =>
    match scanBucket s asize rem (s.segList i) best minDiff with
    | .found block => block
    | .next best minDiff rem => scanBuckets s asize is best minDiff rem

def findFit (s : State) (asize : Nat) : Nat :=
  let seg := getListIndex asize
  if seg = 0 ∧ s.segList 0 ≠ 0 then s.segList 0
  else scanBuckets s asize (List.range' seg (segListNum - seg)) 0 (2 ^ 64 - 1) (searchLimit + 1)

/-- The blocks whose `free.next` the `while` loop over one list reads, in order: each block
it moves on from, the loop's `block = block->free.next`. -/
def scanBucketReads (s : State) (asize : Nat) (rem block best minDiff : Nat) : List Nat :=
  if block = 0 then []
  else
    let fits := decide (getSize s block ≥ asize)
    let diff := getSize s block - asize
    let best' := if fits && decide (diff < minDiff) then block else best
    let minDiff' := if fits && decide (diff < minDiff) then diff else minDiff
    if fits && decide (minDiff' ≤ closeEnough) then []
    else
      match rem with
      | 0 => []
      | rem + 1 => block :: scanBucketReads s asize rem (freeNext s block) best' minDiff'

/-- The blocks whose `free.next` the `for` loop over the lists `is` reads. -/
def scanBucketsReads (s : State) (asize : Nat) : List Nat → Nat → Nat → Nat → List Nat
  | [], _, _, _ => []
  | i :: is, best, minDiff, rem =>
    scanBucketReads s asize rem (s.segList i) best minDiff ++
      match scanBucket s asize rem (s.segList i) best minDiff with
      | .found _ => []
      | .next best minDiff rem => scanBucketsReads s asize is best minDiff rem

/-- The blocks whose `free.next` `find_fit` reads. -/
def findFitReads (s : State) (asize : Nat) : List Nat :=
  let seg := getListIndex asize
  if seg = 0 ∧ s.segList 0 ≠ 0 then []
  else scanBucketsReads s asize (List.range' seg (segListNum - seg)) 0 (2 ^ 64 - 1) (searchLimit + 1)

end SegMalloc.FindFit
