import SegMalloc.Calls

/-! Reuse of a freed block. `free` pushes the block it leaves on the head of its list, and
`find_fit` returns at once a head that fits the request within `CLOSE_ENOUGH` bytes. So a block
freed between two allocated blocks is handed back by the next `malloc` of a size it fits that
closely, without growing the arena: the lists are last in, first out. -/
namespace SegMalloc.Reuse
open Header Block FindFit Api Layout Invariant CoalesceSpec FreeSpec AllocSpec Table MallocSpec Run
  Reachable Calls

section Search

variable {s : State} {asize : Nat}

/-- The loop over one list returns at once a block that fits within `CLOSE_ENOUGH` bytes with
less surplus than the best so far. -/
theorem scanBucket_close {rem block best minDiff : Nat} (h0 : block ≠ 0)
    (hle : asize ≤ getSize s block) (hclose : getSize s block - asize ≤ closeEnough)
    (hlt : getSize s block - asize < minDiff) :
    scanBucket s asize rem block best minDiff = .found block := by
  rw [scanBucket, if_neg h0]
  simp [hle, hclose, hlt]

/-- `find_fit` returns the head of the request's own list when it fits within
`CLOSE_ENOUGH` bytes. -/
theorem findFit_close_head (h0 : s.segList (getListIndex asize) ≠ 0)
    (hle : asize ≤ getSize s (s.segList (getListIndex asize)))
    (hclose : getSize s (s.segList (getListIndex asize)) - asize ≤ closeEnough) :
    findFit s asize = s.segList (getListIndex asize) := by
  unfold findFit
  by_cases hseg : getListIndex asize = 0
  · rw [if_pos ⟨hseg, hseg ▸ h0⟩, hseg]
  · rw [if_neg fun h => hseg h.1]
    obtain ⟨k, hk⟩ : ∃ k, segListNum - getListIndex asize = k + 1 :=
      ⟨segListNum - getListIndex asize - 1, by
        have := getListIndex_le asize; unfold segListNum; omega⟩
    rw [hk, List.range'_succ, scanBuckets,
      scanBucket_close h0 hle hclose (by unfold closeEnough at hclose; omega)]

end Search

/-- On the heap invariant, `malloc(n)` hands out the head of the list of `a(n)` when that
head fits `a(n)` within `CLOSE_ENOUGH` bytes, and does not grow the arena. -/
theorem malloc_close_head (ok : Nat → Bool) {s : State} {h : Heap} (hinv : HeapInv s h)
    (hst : s.heapStart ≠ 0) {n : Nat} (hn₁ : 1 ≤ n) (hn : n ≤ 2 ^ 64 - 24)
    (h0 : s.segList (getListIndex (adjustSize n)) ≠ 0)
    (hle : adjustSize n ≤ getSize s (s.segList (getListIndex (adjustSize n))))
    (hclose : getSize s (s.segList (getListIndex (adjustSize n))) - adjustSize n ≤ closeEnough) :
    ∃ s', malloc ok s n = some (s', s.segList (getListIndex (adjustSize n)) + 8) ∧
      s'.brk = s.brk := by
  obtain ⟨h16, hmin, hlt, -⟩ := adjustSize_bounds hn
  have hf := findFit_close_head h0 hle hclose
  have hf0 : findFit s (adjustSize n) ≠ 0 := by rw [hf]; exact h0
  obtain ⟨r, hr, ⟨-, hr0, -⟩ | ⟨-, S, h', -, hfit, -⟩⟩ :=
    malloc_spec ok hinv hst (show n ≠ 0 by omega) h16 hmin hlt
  · exact absurd hr0 hf0
  · obtain ⟨hr2, -, hbrk⟩ := hfit hf0
    exact ⟨r.1, by rw [hr, ← hf, ← hr2], hbrk⟩

/-- An allocated block between an allocated block (or the prologue) and an allocated block (or
the epilogue) merges with neither when it is freed. -/
theorem absorb_alloc {s : State} {h : Heap} {pre post : List Blk} {S : Nat}
    (hinv : HeapInv s h) (hbs : h.blocks = pre ++ ⟨S, true⟩ :: post)
    (hprev : getPrevAlloc s (s.heapStart + span pre) = true)
    (hnext : getAlloc s (s.heapStart + span pre + S) = true) :
    absorbPrev pre = (pre, 0) ∧ absorbNext post = (0, post) := by
  refine ⟨absorbPrev_of_alloc (alloc_of_endFlags ?_), ?_⟩
  · -- the block's header records the block before it
    have hw := hinv.walk
    rw [hbs, tail_append] at hw
    rw [← (hinv.arena.read (hbs ▸ blockAt_here _ _ _ _) hw.2.1).2.2.1, hprev]
  · cases post with
    | nil => rfl
    | cons d post =>
      have hd : BlockAt s.heapStart h.blocks (s.heapStart + span pre + S) d :=
        ⟨pre ++ [⟨S, true⟩], post, by simp [hbs], by simp [Nat.add_assoc]⟩
      refine absorbNext_of_alloc fun c hc => ?_
      obtain rfl : c = d := (Option.some.inj hc).symm
      rw [← (hinv.read hd).2, hnext]

/-- In every reachable system, `free(p)` of a held pointer whose block lies between two
allocated blocks (the prologue and the epilogue count as allocated), then `malloc(n)` of a
size of the block's class that the block exceeds by at most `CLOSE_ENOUGH` bytes, hands `p`
back without growing the arena. -/
theorem free_malloc_reach (ok : Nat → Bool) {σ : Sys} {p n : Nat} (hR : Reach InitOnce σ)
    (hp : p ∈ σ.live) (hn₁ : 1 ≤ n) (hn : n ≤ 2 ^ 64 - 24)
    (hprev : getPrevAlloc σ.st (p - 8) = true)
    (hnext : getAlloc σ.st (p - 8 + getSize σ.st (p - 8)) = true)
    (hcls : getListIndex (getSize σ.st (p - 8)) = getListIndex (adjustSize n))
    (hle : adjustSize n ≤ getSize σ.st (p - 8))
    (hclose : getSize σ.st (p - 8) - adjustSize n ≤ closeEnough) :
    ∃ s', free σ.st p = some s' ∧ ∃ s'', malloc ok s' n = some (s'', p) ∧ s''.brk = σ.st.brk := by
  rcases hR.sysInv with ⟨-, h0⟩ | ⟨hst, h, hinv, hl⟩
  · exact absurd (h0 ▸ hp) (List.not_mem_nil p)
  obtain ⟨S, hS, h8⟩ := mem_payloads.1 (hl.subset hp)
  obtain ⟨pre, post, hbs, hx⟩ := mem_allocs.1 hS
  obtain ⟨s', h', hfree, hc⟩ := free_spec hinv hbs rfl
  rw [← hx, Nat.sub_add_cancel h8] at hfree
  have hF := freed_of_coalesced hc hbs hinv.arena.sizes
  rw [(hinv.read (mem_allocs.1 hS)).1] at hnext hcls hle hclose
  obtain ⟨hpre, hpost⟩ := absorb_alloc hinv hbs (hx ▸ hprev) (hx ▸ hnext)
  have hM : mergedSize pre ⟨S, true⟩ post = S := by simp [mergedSize, hpre, hpost]
  -- `free` leaves the block, unmerged, at the head of its list
  have hhead : s'.segList (getListIndex (adjustSize n)) = p - 8 := by
    rw [← hcls, ← hM, hF.head, hpre, hx]
  have hsz : getSize s' (p - 8) = S := by
    have : BlockAt s'.heapStart h'.blocks (p - 8) ⟨S, false⟩ := by
      rw [hF.blocks, hF.heapStart, hpre, hpost, hM, hx]; exact blockAt_here _ _ _ _
    exact (hF.inv.read this).1
  obtain ⟨s'', hm, hbrk⟩ := malloc_close_head ok hF.inv (hF.heapStart ▸ hst) hn₁ hn
    (by rw [hhead]; omega) (by rw [hhead, hsz]; exact hle) (by rw [hhead, hsz]; exact hclose)
  exact ⟨s', hfree, s'', by rw [hm, hhead, Nat.sub_add_cancel h8], hbrk.trans hF.brk⟩

/-- After `mm_init`, `malloc(2032)`: the whole first chunk of 2048 bytes, between the prologue
and the epilogue. -/
def wholeSys : Sys := ⟨((malloc (fun _ => true) initSys.st 2032).getD (emptyState, 0)).1, [16]⟩

theorem reach_wholeSys : Reach InitOnce wholeSys :=
  .step (fun _ => true) (.malloc 2032) reach_initSys
    ⟨show 2032 ≤ 2 ^ 64 - 24 by decide, Call.noConfusion⟩ rfl

/-- After `mm_init` and `malloc(2032)`: `free(16)`, then `malloc(2032)`, gives 16 back. -/
theorem free_malloc_reach_wholeSys : Reach InitOnce wholeSys ∧ 16 ∈ wholeSys.live ∧
    1 ≤ 2032 ∧ 2032 ≤ 2 ^ 64 - 24 ∧ getPrevAlloc wholeSys.st (16 - 8) = true ∧
    getAlloc wholeSys.st (16 - 8 + getSize wholeSys.st (16 - 8)) = true ∧
    getListIndex (getSize wholeSys.st (16 - 8)) = getListIndex (adjustSize 2032) ∧
    adjustSize 2032 ≤ getSize wholeSys.st (16 - 8) ∧
    getSize wholeSys.st (16 - 8) - adjustSize 2032 ≤ closeEnough ∧
    ∃ s', free wholeSys.st 16 = some s' ∧
      ∃ s'', malloc (fun _ => true) s' 2032 = some (s'', 16) ∧ s''.brk = wholeSys.st.brk := by
  have h : getPrevAlloc wholeSys.st 8 = true ∧ getAlloc wholeSys.st 2056 = true ∧
      getSize wholeSys.st 8 = adjustSize 2032 := by decide
  have hp : 16 ∈ wholeSys.live := List.mem_singleton_self _
  have hn : getAlloc wholeSys.st (16 - 8 + getSize wholeSys.st (16 - 8)) = true := h.2.1
  refine ⟨reach_wholeSys, hp, by decide, by decide, h.1, hn, by rw [h.2.2], by rw [h.2.2],
    by rw [h.2.2, Nat.sub_self]; decide,
    free_malloc_reach _ reach_wholeSys hp (by decide) (by decide) h.1 hn (by rw [h.2.2])
      (by rw [h.2.2]) (by rw [h.2.2, Nat.sub_self]; decide)⟩

end SegMalloc.Reuse
