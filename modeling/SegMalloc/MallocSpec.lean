import SegMalloc.AllocSpec
import SegMalloc.FitSpec
import SegMalloc.Table

/-! `malloc` on an initialized heap. The request is adjusted to a block size, `find_fit`
chooses a listed free block or `extend_heap` makes one, and the chosen block is unlisted,
marked allocated and split. Both paths are stated through `Allocated`: the invariant, the
new block with its surplus, one new entry in the allocation table, and every allocated
payload kept. -/
namespace SegMalloc.MallocSpec
open Memory Header Block FreeList Coalesce FindFit Api Layout Invariant CoalesceSpec FreeSpec
  FitSpec AllocSpec Table

open State

/-- `malloc` once the heap is initialized, as the search, the extension on a miss, and the
allocation path. -/
theorem malloc_eq (ok : Nat → Bool) (s : State) (size : Nat) (hst : s.heapStart ≠ 0)
    (hsz : size ≠ 0) :
    malloc ok s size =
      (if findFit s (adjustSize size) = 0 then
          extendHeap ok s (Header.max (adjustSize size) chunksize)
        else some (s, findFit s (adjustSize size))).bind fun r =>
        if r.2 = 0 then some (r.1, 0)
        else (deleteNormalOrMini r.1 r.2).bind fun s₁ =>
          some (splitBlock (markAlloc s₁ r.2) r.2 (adjustSize size), headerToPayload r.2) := by
  unfold malloc
  rw [show (if size ≤ wsize then minBlockSize else roundUp (usize (size + wsize)) dsize) =
    adjustSize size from rfl]
  simp only [hst, hsz, if_false, pure_bind, Bool.not_true, Bool.false_eq_true]
  split
  · rfl
  · rw [Option.some_bind, if_neg ‹_›]; rfl

/-- Below `2^64 - 24` the adjusted size is the request plus the header, rounded up to 16
bytes, and at least 16. -/
theorem adjustSize_eq {size : Nat} (h : size ≤ 2 ^ 64 - 24) :
    adjustSize size = if size ≤ 8 then 16 else (size + 8 + 15) / 16 * 16 := by
  unfold adjustSize
  by_cases h8 : size ≤ 8
  · rw [if_pos (show size ≤ wsize from h8), if_pos h8]; rfl
  · rw [if_neg (show ¬ size ≤ wsize from h8), if_neg h8, usize_of_lt (by unfold wsize; omega),
      roundUp_eq (by unfold wsize; omega)]
    rfl

theorem adjustSize_bounds {size : Nat} (h : size ≤ 2 ^ 64 - 24) :
    adjustSize size % 16 = 0 ∧ 16 ≤ adjustSize size ∧ adjustSize size + 15 < 2 ^ 64 ∧
      size + 8 ≤ adjustSize size := by
  rw [adjustSize_eq h]
  split_ifs <;> omega

theorem max_chunksize {asize : Nat} (h16 : asize % 16 = 0) (hlt : asize + 15 < 2 ^ 64) :
    Header.max asize chunksize % 16 = 0 ∧ 16 ≤ Header.max asize chunksize ∧
      Header.max asize chunksize + 15 < 2 ^ 64 ∧ asize ≤ Header.max asize chunksize := by
  unfold Header.max chunksize
  split_ifs <;> omega

/-- What a successful `malloc` of `asize` bytes leaves when the chosen free block has `S`
bytes: the invariant, the allocated block before `p` with the surplus split off as a free
block, one new entry in the allocation table, and every allocated payload kept. -/
structure Allocated (s : State) (h : Heap) (asize S : Nat) (s' : State) (h' : Heap) (p : Nat) :
    Prop where
  inv : HeapInv s' h'
  blocks : ∃ pre post, h'.blocks = pre ++ ⟨asize, true⟩ ::
    (if S = asize then post else ⟨S - asize, false⟩ :: post) ∧ p = s.heapStart + span pre + 8
  fits : asize ≤ S
  table : (allocs s.heapStart h'.blocks).Perm ((p - 8, asize) :: allocs s.heapStart h.blocks)
  lo : s'.lo = s.lo
  heapStart : s'.heapStart = s.heapStart
  frame : Agree (AllocBody s.heapStart h.blocks) s.mem s'.mem

section Alloc

variable {s : State} {h : Heap} {pre post : List Blk} {F : Blk} {asize : Nat}

/-- The allocation path of `malloc` from a listed free block `F` of at least `asize` bytes. -/
theorem allocBlock_spec (hinv : HeapInv s h) (hbs : h.blocks = pre ++ F :: post)
    (hF : F.alloc = false) (hxi : s.heapStart + span pre ∈ h.bins (getListIndex F.size))
    (hle : asize ≤ F.size) (h16 : asize % 16 = 0) (hmin : 16 ≤ asize) :
    ∃ s' h', ((deleteNormalOrMini s (s.heapStart + span pre)).bind fun s₁ =>
        some (splitBlock (markAlloc s₁ (s.heapStart + span pre)) (s.heapStart + span pre) asize,
          headerToPayload (s.heapStart + span pre))) = some (s', s.heapStart + span pre + 8) ∧
      Allocated s h asize F.size s' h' (s.heapStart + span pre + 8) ∧ s'.brk = s.brk := by
  obtain ⟨s₃, hs₃, hinv₃, hlo₃, hbrk₃, hst₃, hag₃⟩ := markAlloc_spec hinv hbs hF hxi
  obtain ⟨s₁, hdel, rfl⟩ := Option.map_eq_some'.1 hs₃
  -- the block after a free block is allocated, or the epilogue
  have hRa : ∀ c ∈ post.head?, c.alloc = true := fun c hc => by
    rcases (List.chain'_cons'.1 (hbs ▸ hinv.coalesced).right_of_append).1 c hc with h | h
    · simp [hF] at h
    · exact h
  obtain ⟨h', hinv', hbl', hlo', hbrk', hst', hag'⟩ := splitBlock_spec hinv₃ rfl hRa hle h16 hmin
  rw [hst₃] at hinv' hlo' hbrk' hst' hag'
  have hok := hinv.arena.sizes
  have hFat : BlockAt s.heapStart h.blocks (s.heapStart + span pre) F := by
    rw [hbs]; exact blockAt_here _ _ _ _
  refine ⟨_, h', by rw [hdel, Option.some_bind]; rfl, ⟨hinv', ⟨pre, post, hbl', rfl⟩, hle, ?_,
    hlo'.trans hlo₃, hst', ?_⟩, hbrk'.trans hbrk₃⟩
  · rw [hbl', hbs, Nat.add_sub_cancel]
    exact allocs_split _ _ _ hF hle
  · -- an allocated payload is outside the chosen block and the header after it
    refine (hag₃.mono fun y hy => ?_).trans (hag'.mono fun y hy => ⟨fun z c hz hc => ?_, ?_⟩)
    · exact ⟨hy.outFree hok, (hy.apart hok hFat hF).imp (by omega) id⟩
    · -- a free block of the marked list is not the chosen one, so it was there before
      have hzx : z ≠ s.heapStart + span pre := by
        rintro rfl
        obtain rfl := blockAt_unique hinv₃.arena.sizes hz (blockAt_here _ _ _ _)
        simp at hc
      exact hy.outFree hok z c (hbs ▸ blockAt_replace hz hzx rfl) hc
    · exact hy.apart hok hFat hF

end Alloc

section Malloc

variable {s : State} {h : Heap} {size : Nat}

/-- `malloc` on an initialized heap, for a request whose adjusted size is a multiple of 16
that fits the arithmetic. The result is `NULL` with nothing changed exactly when no listed
block fits and the arena refuses the extension; otherwise the block `find_fit` chose, or the
one `extend_heap` returned, is allocated. -/
theorem malloc_spec (ok : Nat → Bool) (hinv : HeapInv s h) (hst : s.heapStart ≠ 0)
    (hsz : size ≠ 0) (h16 : adjustSize size % 16 = 0) (hmin : 16 ≤ adjustSize size)
    (hlt : adjustSize size + 15 < 2 ^ 64) :
    ∃ r, malloc ok s size = some r ∧
      ((r = (s, 0) ∧ findFit s (adjustSize size) = 0 ∧
          ¬ (ok (Header.max (adjustSize size) chunksize) = true ∧
            s.brk + Header.max (adjustSize size) chunksize ≤ 2 ^ 64)) ∨
        (r.2 ≠ 0 ∧ ∃ S h', Allocated s h (adjustSize size) S r.1 h' r.2 ∧
          (findFit s (adjustSize size) ≠ 0 → r.2 = findFit s (adjustSize size) + 8 ∧
            S = getSize s (findFit s (adjustSize size)) ∧ r.1.brk = s.brk) ∧
          (findFit s (adjustSize size) = 0 → ∃ s₁, extendHeap ok s
            (Header.max (adjustSize size) chunksize) = some (s₁, r.2 - 8) ∧
            S = getSize s₁ (r.2 - 8) ∧
            r.1.brk = s.brk + Header.max (adjustSize size) chunksize))) := by
  rw [malloc_eq ok s size hst hsz]
  have hok := hinv.arena.sizes
  by_cases hf : findFit s (adjustSize size) = 0
  · rw [if_pos hf]
    obtain ⟨hm16, hmmin, hmlt, hmle⟩ := max_chunksize h16 hlt
    rcases extendHeap_spec ok hinv hm16 hmmin hmlt with ⟨hno, hext⟩ | ⟨-, -, s₁, h₁, hext, hc⟩
    · exact ⟨_, by rw [hext]; rfl, .inl ⟨rfl, hf, hno⟩⟩
    · -- the new bytes, merged with a free last block, are the chosen block
      set m := Header.max (adjustSize size) chunksize
      have hx0 : s.heapStart + span (absorbPrev h.blocks).1 ≠ 0 := by omega
      have hbl : h₁.blocks = (absorbPrev h.blocks).1 ++
          [⟨mergedSize h.blocks ⟨m, false⟩ [], false⟩] := hc.blocks
      have hxi := hc.inv.listed _ _ (by rw [hbl, hc.heapStart]; exact blockAt_here _ _ _ _) rfl
      -- the extension and the merge add no entry to the table
      have htab : allocs s.heapStart h₁.blocks = allocs s.heapStart h.blocks := by
        rw [hc.blocks, allocs_coalesceBlocks (b := ⟨m, false⟩) _ _ _ rfl]; simp
      have hle : adjustSize size ≤ mergedSize h.blocks ⟨m, false⟩ [] := by
        unfold mergedSize; simp only; omega
      obtain ⟨s', h', hcode, hA, hbrk'⟩ := allocBlock_spec hc.inv hbl rfl
        (by rw [hc.heapStart]; exact hxi) hle h16 hmin
      rw [hc.heapStart] at hcode hA
      refine ⟨_, by rw [hext, Option.some_bind]; dsimp only; rw [if_neg hx0, hcode],
        .inr ⟨by simp [headerToPayload], _, h', ⟨hA.inv, ?_, hA.fits, ?_, hA.lo.trans hc.lo,
          hA.heapStart.trans hc.heapStart, ?_⟩, fun h => absurd hf h, fun _ => ⟨s₁, ?_, ?_,
          hbrk'.trans hc.brk⟩⟩⟩
      · obtain ⟨pre, post, h₁', h₂'⟩ := hA.blocks
        exact ⟨pre, post, h₁', by rw [h₂', hc.heapStart]⟩
      · have ht := hA.table
        rw [hc.heapStart, htab] at ht
        exact ht
      · have hsm : SizesOk (h.blocks ++ [⟨m, false⟩]) := sizesOk_append.2
          ⟨hok, fun c hc' => by simp at hc'; subst hc'; exact ⟨hm16, hmmin⟩⟩
        have hbody : ∀ y, AllocBody s.heapStart h.blocks y →
            AllocBody s.heapStart (h.blocks ++ [⟨m, false⟩]) y := fun y hy => by
          simpa [AllocBody] using hy
        have hbody₁ : ∀ y, AllocBody s.heapStart h.blocks y → AllocBody s₁.heapStart h₁.blocks y :=
          fun y hy => by rw [hc.heapStart]; unfold AllocBody; rw [htab]; exact hy
        refine (hc.frame.mono fun y hy => ⟨(hbody y hy).outFree hsm, .inl ?_⟩).trans
          (hA.frame.mono hbody₁)
        -- an allocated payload lies below the new bytes
        obtain ⟨⟨z, n⟩, hq, -, h₂⟩ := hy
        have := (blockAt_bound (mem_allocs.1 hq)).2
        show y < s.heapStart + span h.blocks + m + 0
        simp only at h₂ this; omega
      · rw [hext]; simp [headerToPayload]
      · have := (hc.inv.read (by rw [hbl]; exact blockAt_here _ _ _ _)).1
        simp only [headerToPayload, Nat.add_sub_cancel]
        rw [hc.heapStart] at this; exact this.symm
  · -- `find_fit` found a listed block of at least the adjusted size
    rw [if_neg hf, Option.some_bind]
    dsimp only
    rw [if_neg hf]
    obtain ⟨i, c, hzi, hz, hle⟩ := ((findFit_spec hinv hmin h16).1.resolve_left hf)
    obtain ⟨c', hz', hc, hci⟩ := hinv.lists.members i _ hzi
    obtain rfl := blockAt_unique hok hz' hz
    obtain ⟨pre, post, hbs, hx⟩ := hz
    obtain ⟨s', h', hcode, hA, hbrk'⟩ := allocBlock_spec hinv hbs hc (hx ▸ hci ▸ hzi) hle h16 hmin
    rw [← hx] at hcode hA
    refine ⟨_, by rw [hcode], .inr ⟨by simp [headerToPayload], _, h', hA,
      fun _ => ⟨rfl, ?_, hbrk'⟩, fun h => absurd h hf⟩⟩
    rw [(hinv.read (by rw [hbs, hx]; exact blockAt_here _ _ _ _)).1]

end Malloc

/-- A new block of `malloc` is none of the allocated blocks before it. -/
theorem Allocated.fresh {s s' : State} {h h' : Heap} {asize T p z S : Nat}
    (hA : Allocated s h asize T s' h' p) (hz : (z, S) ∈ allocs s.heapStart h.blocks) : p - 8 ≠ z := by
  rintro rfl
  have hok := hA.inv.arena.sizes
  have hnd := hA.table.nodup_iff.1 (allocs_nodup _ hok)
  have e := blockAt_unique hok (mem_allocs.1 (hA.table.symm.subset (List.mem_cons_self _ _)))
    (mem_allocs.1 (hA.table.symm.subset (List.mem_cons_of_mem _ hz)))
  simp only [Blk.mk.injEq, and_true] at e
  exact (List.nodup_cons.1 hnd).1 (e ▸ hz)

/-- A pointer handed out is added to the payloads; the others are kept. -/
theorem Allocated.perm_live {s s' : State} {h h' : Heap} {asize S p : Nat} {live : List Nat}
    (hA : Allocated s h asize S s' h' p) (hl : live.Perm (payloads s.heapStart h.blocks)) :
    (p :: live).Perm (payloads s.heapStart h'.blocks) := by
  obtain ⟨pre, post, -, hp⟩ := hA.blocks
  have := hA.table.map fun q => q.1 + 8
  rw [List.map_cons, show p - 8 + 8 = p by omega] at this
  exact (hl.cons p).trans this.symm

end SegMalloc.MallocSpec
