import SegMalloc.BestFit
import SegMalloc.Undo

/-! How fragmented the heap can get. `coalesce_block` leaves no two free neighbours, so between
two free blocks of the walk lies an allocated one: a heap whose client holds `n` pointers has at
most `n + 1` free blocks, and the segregated lists, which hold each free block once, at most
`n + 1` entries in all. With at most `SEARCH_LIMIT` pointers held, the lists are never longer
than the scan of `find_fit` may go, so it examines every free block: it is a best fit over the
whole heap, up to `CLOSE_ENOUGH`, and `malloc` grows the heap only when no free block fits. -/
namespace SegMalloc.Fragmentation
open Header Block FindFit Api Layout Invariant AllocSpec Table MallocSpec ApiSpec Run Reachable
  Abstraction Growth BestFit Undo

/-- The addresses of the free blocks of `bs` laid out from `a`. -/
def freeAddrs (a : Nat) : List Blk → List Nat
  | [] => []
  | b :: bs => if b.alloc then freeAddrs (a + b.size) bs else a :: freeAddrs (a + b.size) bs

section Walk

variable {a : Nat} {bs : List Blk}

theorem mem_freeAddrs {x : Nat} :
    x ∈ freeAddrs a bs ↔ ∃ c, BlockAt a bs x c ∧ c.alloc = false := by
  induction bs generalizing a with
  | nil => simp [freeAddrs, not_blockAt_nil]
  | cons b bs ih =>
    obtain ⟨S, al⟩ := b
    simp only [blockAt_cons, or_and_right, exists_or, ← ih]
    cases al <;> simp [freeAddrs, and_assoc]

theorem freeAddrs_nodup (hok : SizesOk bs) : (freeAddrs a bs).Nodup := by
  induction bs generalizing a with
  | nil => exact List.nodup_nil
  | cons b bs ih =>
    have ih' := ih (fun c hc => hok c (List.mem_cons_of_mem _ hc)) (a := a + b.size)
    have hb : 16 ≤ b.size := (hok b (List.mem_cons_self _ _)).2
    simp only [freeAddrs]
    split_ifs
    · exact ih'
    · -- the later free blocks start after this one
      refine List.nodup_cons.2 ⟨fun hmem => ?_, ih'⟩
      obtain ⟨c, hc, -⟩ := mem_freeAddrs.1 hmem
      have := (blockAt_bound hc).1
      omega

theorem length_freeAddrs : (freeAddrs a bs).length = bs.countP fun b => !b.alloc := by
  induction bs generalizing a with
  | nil => rfl
  | cons b bs ih => cases hb : b.alloc <;> simp [freeAddrs, hb, ih]

theorem length_allocs : (allocs a bs).length = bs.countP fun b => b.alloc := by
  induction bs generalizing a with
  | nil => rfl
  | cons b bs ih => cases hb : b.alloc <;> simp [hb, ih]

/-- A walk with no two free neighbours has at most one free block more than allocated ones,
and no more when it starts with an allocated block. -/
theorem countP_free_le (hc : bs.Chain' NotBothFree) :
    bs.countP (fun b => !b.alloc) ≤ bs.countP (fun b => b.alloc) + 1 ∧
      ((∀ c ∈ bs.head?, c.alloc = true) →
        bs.countP (fun b => !b.alloc) ≤ bs.countP fun b => b.alloc) := by
  induction bs with
  | nil => simp
  | cons b t ih =>
    obtain ⟨hnext, ht⟩ := List.chain'_cons'.1 hc
    obtain ⟨ih₁, ih₂⟩ := ih ht
    cases hb : b.alloc
    · -- a free block: the next block is allocated, or there is none
      have := ih₂ fun c hc' => (hnext c hc').resolve_left (by simp [hb])
      simp [hb]
      omega
    · simp [hb]
      omega

end Walk

section Lists

variable {s : State} {h : Heap}

/-- The lists together hold exactly the free blocks of the walk, each once. -/
theorem bins_flatMap (hinv : HeapInv s h) :
    ((List.range segListNum).flatMap h.bins).Perm (freeAddrs s.heapStart h.blocks) := by
  refine (List.perm_ext_iff_of_nodup ?_ (freeAddrs_nodup hinv.arena.sizes)).2 fun x => ?_
  · -- a block has one size class, so no two lists share it
    refine List.nodup_flatMap.2 ⟨fun i _ => hinv.lists.nodup i,
      (List.nodup_range segListNum).pairwise_of_forall_ne fun i _ j _ hij y hi hj => hij ?_⟩
    obtain ⟨c, hc, -, rfl⟩ := (mem_bins hinv).1 hi
    obtain ⟨c', hc', -, rfl⟩ := (mem_bins hinv).1 hj
    rw [blockAt_unique hinv.arena.sizes hc hc']
  · rw [List.mem_flatMap, mem_freeAddrs]
    constructor
    · rintro ⟨i, -, hx⟩
      obtain ⟨c, hc, hf, -⟩ := (mem_bins hinv).1 hx
      exact ⟨c, hc, hf⟩
    · rintro ⟨c, hc, hf⟩
      exact ⟨_, List.mem_range.2 (by have := getListIndex_le c.size; unfold segListNum; omega),
        hinv.listed _ _ hc hf⟩

/-- The entries of the lists number the free blocks of the walk. -/
theorem bins_length (hinv : HeapInv s h) :
    ((List.range segListNum).map fun i => (h.bins i).length).sum =
      h.blocks.countP fun b => !b.alloc := by
  rw [← length_freeAddrs (a := s.heapStart), ← (bins_flatMap hinv).length_eq, List.flatMap_def,
    List.length_flatten, List.map_map]
  rfl

/-- With the client's pointers the payloads of the allocated blocks, the lists hold at most one
entry more than the client holds pointers. -/
theorem bins_le {live : List Nat} (hinv : HeapInv s h)
    (hl : live.Perm (payloads s.heapStart h.blocks)) :
    ((List.range segListNum).map fun i => (h.bins i).length).sum ≤ live.length + 1 := by
  rw [bins_length hinv, hl.length_eq, payloads, List.length_map, length_allocs]
  exact (countP_free_le hinv.coalesced).1

/-- The lists from class `k` up hold no more entries than all the lists. -/
theorem sum_range'_le (f : Nat → Nat) {k : Nat} (hk : k ≤ segListNum) :
    ((List.range' k (segListNum - k)).map f).sum ≤ ((List.range segListNum).map f).sum := by
  have e := List.range'_append 0 k (segListNum - k) 1
  rw [Nat.sub_add_cancel hk, Nat.zero_add, Nat.one_mul] at e
  rw [List.range_eq_range', ← e, List.map_append, List.sum_append]
  exact Nat.le_add_left _ _

/-- With at most `SEARCH_LIMIT` pointers held, `find_fit` fits no worse than any free block of
the heap. -/
theorem findFit_exhaustive {live : List Nat} {asize : Nat} (hinv : HeapInv s h)
    (hl : live.Perm (payloads s.heapStart h.blocks)) (hlive : live.length ≤ searchLimit)
    (hmin : 16 ≤ asize) (h16 : asize % 16 = 0) {x : Nat} {c : Blk}
    (hx : BlockAt s.heapStart h.blocks x c) (hf : c.alloc = false) :
    NoWorse s asize (findFit s asize) x := fun hfit => by
  have hk : getListIndex asize ≤ segListNum := by
    have := getListIndex_le asize; unfold segListNum; omega
  have hsum := (sum_range'_le (fun i => (h.bins i).length) hk).trans (bins_le hinv hl)
  have hsz := (hinv.read hx).1
  exact (findFit_best hinv (by omega) h16).2 (by omega) _ (getListIndex_mono (hsz ▸ hfit))
    (by have := getListIndex_le c.size; unfold segListNum; omega) x (hinv.listed x c hx hf) hfit

end Lists

/-- In every reachable system with the heap initialized, the free blocks of the walk number at
most one more than the pointers the client holds, and the segregated lists hold exactly that
many entries in all. -/
theorem free_blocks_reach {σ : Sys} (hR : Reach InitOnce σ) (hst : σ.st.heapStart ≠ 0) :
    ∃ h, HeapInv σ.st h ∧
      ((List.range segListNum).map fun i => (h.bins i).length).sum =
        h.blocks.countP (fun b => !b.alloc) ∧
      h.blocks.countP (fun b => !b.alloc) ≤ σ.live.length + 1 := by
  rcases hR.sysInv with ⟨hU, -⟩ | ⟨-, h, hinv, hl⟩
  · exact absurd hU.1 hst
  exact ⟨h, hinv, bins_length hinv, bins_length hinv ▸ bins_le hinv hl⟩

/-- After `mm_init` and `malloc(1)`. -/
theorem free_blocks_mallocSys : Reach InitOnce mallocSys ∧ mallocSys.st.heapStart ≠ 0 ∧
    ∃ h, HeapInv mallocSys.st h ∧
      ((List.range segListNum).map fun i => (h.bins i).length).sum =
        h.blocks.countP (fun b => !b.alloc) ∧
      h.blocks.countP (fun b => !b.alloc) ≤ mallocSys.live.length + 1 :=
  ⟨reach_mallocSys, by decide, free_blocks_reach reach_mallocSys (by decide)⟩

/-- In every reachable system with the heap initialized and at most `SEARCH_LIMIT` pointers held,
for every request size the allocator asks for, `find_fit` returns a block that fits no worse
than any free block of the heap, unless it is within `CLOSE_ENOUGH` bytes of the request: the
search is a best fit over the whole heap. -/
theorem findFit_all_reach {σ : Sys} {asize : Nat} (hR : Reach InitOnce σ)
    (hst : σ.st.heapStart ≠ 0) (hlive : σ.live.length ≤ searchLimit) (hmin : 16 ≤ asize)
    (h16 : asize % 16 = 0) :
    ∃ h, HeapInv σ.st h ∧ ∀ x c, BlockAt σ.st.heapStart h.blocks x c → c.alloc = false →
      NoWorse σ.st asize (findFit σ.st asize) x := by
  rcases hR.sysInv with ⟨hU, -⟩ | ⟨-, h, hinv, hl⟩
  · exact absurd hU.1 hst
  exact ⟨h, hinv, fun _ _ hx hf => findFit_exhaustive hinv hl hlive hmin h16 hx hf⟩

/-- On `fragSys`, one pointer held, a request of 96 bytes: the answer is compared with the free
blocks of 112 bytes at 8 and of 1920 bytes at 136. -/
theorem findFit_all_fragSys : Reach InitOnce fragSys ∧ fragSys.st.heapStart ≠ 0 ∧
    fragSys.live.length ≤ searchLimit ∧ 16 ≤ 96 ∧ 96 % 16 = 0 ∧
    ∃ h, HeapInv fragSys.st h ∧ ∀ x c, BlockAt fragSys.st.heapStart h.blocks x c →
      c.alloc = false → NoWorse fragSys.st 96 (findFit fragSys.st 96) x :=
  have hlive : fragSys.live.length ≤ searchLimit := by rw [fragSys_live]; decide
  ⟨reach_fragSys, fragSys_heapStart, hlive, by decide, rfl,
    findFit_all_reach reach_fragSys fragSys_heapStart hlive (by decide) rfl⟩

/-- In every reachable system with the heap initialized and at most `SEARCH_LIMIT` pointers held,
`malloc(n)` returns a block without growing the heap whenever some free block of the heap has
at least `a(n)` bytes. -/
theorem malloc_fits_reach (ok : Nat → Bool) {σ : Sys} {n : Nat} (hR : Reach InitOnce σ)
    (hst : σ.st.heapStart ≠ 0) (hlive : σ.live.length ≤ searchLimit) (hn₁ : 1 ≤ n)
    (hn : n ≤ 2 ^ 64 - 24)
    (hfree : ∃ h x c, HeapInv σ.st h ∧ BlockAt σ.st.heapStart h.blocks x c ∧
      c.alloc = false ∧ adjustSize n ≤ c.size) :
    ∃ s' p, malloc ok σ.st n = some (s', p) ∧ p ≠ 0 ∧ s'.brk = σ.st.brk := by
  obtain ⟨h, x, c, hinv, hx, hf, hfit⟩ := hfree
  obtain ⟨h16, hmin, hlt, -⟩ := adjustSize_bounds hn
  rcases hR.sysInv with ⟨hU, -⟩ | ⟨-, h', hinv', hl⟩
  · exact absurd hU.1 hst
  obtain rfl := heapInv_unique hinv' hinv
  -- the search finds a block, so `malloc` does not extend the heap
  have hnw := findFit_exhaustive hinv hl hlive hmin h16 hx hf (by rw [(hinv.read hx).1]; exact hfit)
  obtain ⟨r, hr, ⟨-, hf0, -⟩ | ⟨hr0, S, h'', -, hfit', -⟩⟩ :=
    malloc_spec ok hinv hst (by omega) h16 hmin hlt
  · exact absurd hf0 hnw.1
  · exact ⟨r.1, r.2, hr, hr0, (hfit' hnw.1).2.2⟩

/-- The heap `mm_init` leaves: one free chunk. -/
theorem initSys_heap : ∃ h, HeapInv initSys.st h ∧ h.blocks = [⟨chunksize, false⟩] := by
  obtain ⟨s', b, hi, -, hc⟩ := mmInit_spec (fun _ => true) (s := emptyState) rfl rfl
  have hb : (mmInit (fun _ => true) emptyState).map Prod.snd = some true := by decide
  rw [hi] at hb
  obtain rfl : initSys.st = s' := by
    show ((mmInit (fun _ => true) emptyState).getD (emptyState, false)).1 = s'
    rw [hi]; rfl
  rcases hc with ⟨h0, -⟩ | ⟨-, h, hinv, -, hbl⟩
  · exact absurd h0 (by decide)
  · exact ⟨h, hinv, hbl (Option.some.inj hb)⟩

/-- After `mm_init`, `malloc(1)` from the free chunk. -/
theorem malloc_fits_initSys : Reach InitOnce initSys ∧ initSys.st.heapStart ≠ 0 ∧
    initSys.live.length ≤ searchLimit ∧ 1 ≤ 1 ∧ 1 ≤ 2 ^ 64 - 24 ∧
    (∃ h x c, HeapInv initSys.st h ∧ BlockAt initSys.st.heapStart h.blocks x c ∧
      c.alloc = false ∧ adjustSize 1 ≤ c.size) ∧
    ∃ s' p, malloc (fun _ => true) initSys.st 1 = some (s', p) ∧ p ≠ 0 ∧
      s'.brk = initSys.st.brk :=
  have hfree : ∃ h x c, HeapInv initSys.st h ∧ BlockAt initSys.st.heapStart h.blocks x c ∧
      c.alloc = false ∧ adjustSize 1 ≤ c.size := by
    obtain ⟨h, hinv, hbl⟩ := initSys_heap
    exact ⟨h, initSys.st.heapStart, ⟨chunksize, false⟩, hinv,
      by rw [hbl]; exact blockAt_here _ [] [] _, rfl, by decide⟩
  ⟨reach_initSys, by decide, by decide, le_rfl, by decide, hfree,
    malloc_fits_reach _ reach_initSys (by decide) (by decide) le_rfl (by decide) hfree⟩

end SegMalloc.Fragmentation
