import SegMalloc.Block

/-! The heap checker of `mm.c`. Its walks follow `find_next` or `free.next` with no
bound, so each takes `fuel` and `none` means the walk did not end. The checker
reassigns `consistent` after every sub-check, and the `line` argument only feeds
debug output, so it is left out. -/
namespace SegMalloc.Checker
open Memory Header Block

def checkPrologue (s : State) (prologue : Nat) : Bool :=
  if extractSize (loadWord s.mem prologue) ≠ 0 || !extractAlloc (loadWord s.mem prologue) then false
  else true

def checkEpilogue (s : State) : Nat → Nat → Option Bool
  | 0, _ => none
  | fuel + 1, epilogue =>
    if getSize s epilogue ≠ 0 then checkEpilogue s fuel (findNext s epilogue)
    else some (if getSize s epilogue ≠ 0 || !getAlloc s epilogue then false else true)

/-- The walk shared by three checks: `while (get_size(block) > 0)`, returning false
at the first block that is `bad`. -/
def walkBlocks (s : State) (bad : Nat → Bool) : Nat → Nat → Option Bool
  | 0, _ => none
  | fuel + 1, block =>
    if getSize s block > 0 then
      if bad block then some false else walkBlocks s bad fuel (findNext s block)
    else some true

def checkLieWithinHeap (fuel : Nat) (s : State) (block : Nat) : Option Bool :=
  walkBlocks s (fun b => b < s.lo || b > s.brk - 1) fuel block

def checkBlockAlignment (fuel : Nat) (s : State) (block : Nat) : Option Bool :=
  walkBlocks s (fun b => getSize s b % dsize ≠ 0) fuel block

def checkMinimumBlockSize (fuel : Nat) (s : State) (block : Nat) : Option Bool :=
  walkBlocks s (fun b => getSize s b < minBlockSize) fuel block

/-- Unlike the other walks this one stops at the first block that is allocated or
no larger than 16 bytes. -/
def checkHeaderFooterMatch (s : State) : Nat → Nat → Option Bool
  | 0, _ => none
  | fuel + 1, block =>
    if getSize s block > minBlockSize && !getAlloc s block then
      let footerp := headerToFooter s block
      if getSize s block ≠ extractSize (loadWord s.mem footerp) then some false
      else checkHeaderFooterMatch s fuel (findNext s block)
    else some true

def checkContiguousFreeBlocks (s : State) : Nat → Nat → Nat → Option Bool
  | 0, _, _ => none
  | fuel + 1, prev, curr =>
    if getSize s curr > 0 then
      if !getAlloc s curr && !getAlloc s prev then some false
      else checkContiguousFreeBlocks s fuel curr (findNext s curr)
    else some true

/-- Floyd's cycle test along `free.next`. -/
def checkCycle (s : State) : Nat → Nat → Nat → Option Bool
  | 0, _, _ => none
  | fuel + 1, hare, tortoise =>
    if hare ≠ 0 && freeNext s hare ≠ 0 then
      let hare := freeNext s (freeNext s hare)
      let tortoise := freeNext s tortoise
      if hare = tortoise then some false else checkCycle s fuel hare tortoise
    else some true

/-- The walk shared by the list checks: `while (block != NULL)`, returning false at the
first block that is `bad`. -/
def walkList (s : State) (bad : Nat → Bool) : Nat → Nat → Option Bool
  | 0, _ => none
  | fuel + 1, block =>
    if block ≠ 0 then
      if bad block then some false else walkList s bad fuel (freeNext s block)
    else some true

def checkAlloc (fuel : Nat) (s : State) (list : Nat) : Option Bool :=
  walkList s (getAlloc s) fuel list

def checkBounds (fuel : Nat) (s : State) (list : Nat) : Option Bool :=
  walkList s (fun b => b < s.lo || b > s.brk - 1) fuel list

def checkConsecutive (s : State) : Nat → Nat → Option Bool
  | 0, _ => none
  | fuel + 1, block =>
    if block ≠ 0 && freeNext s block ≠ 0 then
      if freePrev s (freeNext s block) ≠ block then some false
      else checkConsecutive s fuel (freeNext s block)
    else some true

def checkBucket (fuel : Nat) (s : State) (list : Nat) : Option Bool :=
  if list = 0 then some true
  else
    let seg := getListIndex (getSize s list)
    walkList s (fun b => getListIndex (getSize s b) ≠ seg) fuel list

/-- The loop over lists `1..14`; each check's result overwrites `consistent`. -/
def checkLists (fuel : Nat) (s : State) : List Nat → Bool → Option Bool
  | [], consistent => some consistent
  | i :: is, _ => do
    let _ ← checkCycle s fuel (s.segList i) (s.segList i)
    let _ ← checkAlloc fuel s (s.segList i)
    let _ ← checkBounds fuel s (s.segList i)
    let _ ← checkConsecutive s fuel (s.segList i)
    let consistent ← checkBucket fuel s (s.segList i)
    checkLists fuel s is consistent

/-- Every sub-check runs, and each result replaces the previous one in `consistent`. -/
def mmCheckheap (fuel : Nat) (s : State) : Option Bool := do
  let prologue := s.heapStart - wsize
  let epilogue := s.heapStart
  let block := s.heapStart
  let prev := s.heapStart
  let curr := findNext s prev
  let _ := checkPrologue s prologue
  let _ ← checkEpilogue s fuel epilogue
  let _ ← checkLieWithinHeap fuel s block
  let _ ← checkBlockAlignment fuel s block
  let _ ← checkHeaderFooterMatch s fuel block
  let _ ← checkMinimumBlockSize fuel s block
  let consistent ← checkContiguousFreeBlocks s fuel prev curr
  checkLists fuel s (List.range' 1 (segListNum - 1)) consistent

end SegMalloc.Checker
