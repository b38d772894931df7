import SegMalloc.CheckerSpec
import SegMalloc.Reachable

/-! The heap checker accepts every heap the allocator builds. On a state that satisfies the
heap invariant, each walk of `mm_checkheap` over the implicit list meets only blocks it
accepts and ends at the epilogue, and each walk of a list meets only free blocks of the
list's class, linked both ways, and ends at `NULL`. So with fuel above the arena's size
every sub-check returns true, and so does `mm_checkheap`: on a reachable heap the checker
raises no false alarm. -/
namespace SegMalloc.CheckerAccepts
open Memory Header Block Checker Layout Links Invariant CheckerSpec Run Reachable

/-- The sub-checks of `mm_checkheap` over the implicit list all return true. -/
structure WalkPasses (fuel : Nat) (s : State) : Prop where
  prologue : checkPrologue s (s.heapStart - wsize) = true
  epilogue : checkEpilogue s fuel s.heapStart = some true
  within : checkLieWithinHeap fuel s s.heapStart = some true
  aligned : checkBlockAlignment fuel s s.heapStart = some true
  footers : checkHeaderFooterMatch s fuel s.heapStart = some true
  minimum : checkMinimumBlockSize fuel s s.heapStart = some true
  contiguous : checkContiguousFreeBlocks s fuel s.heapStart (findNext s s.heapStart) = some true

/-- The sub-checks of `mm_checkheap` on list `i` all return true. -/
structure ListPasses (fuel : Nat) (s : State) (i : Nat) : Prop where
  cycle : checkCycle s fuel (s.segList i) (s.segList i) = some true
  alloc : checkAlloc fuel s (s.segList i) = some true
  bounds : checkBounds fuel s (s.segList i) = some true
  consecutive : checkConsecutive s fuel (s.segList i) = some true
  bucket : checkBucket fuel s (s.segList i) = some true

/-- Every sub-check `mm_checkheap` runs returns true. -/
structure ChecksPass (fuel : Nat) (s : State) : Prop where
  walk : WalkPasses fuel s
  lists : ∀ i ∈ List.range' 1 (segListNum - 1), ListPasses fuel s i

/-! ## The verdict -/

section Verdict

variable {fuel : Nat} {s : State}

theorem checkLists_pass : ∀ {is : List Nat}, (∀ i ∈ is, ListPasses fuel s i) →
    checkLists fuel s is true = some true
  | [], _ => rfl
  | i :: is, h => by
    obtain ⟨h₁, h₂, h₃, h₄, h₅⟩ := h i (List.mem_cons_self _ _)
    simp only [checkLists, h₁, h₂, h₃, h₄, h₅, Option.bind_eq_bind, Option.some_bind]
    exact checkLists_pass fun j hj => h j (List.mem_cons_of_mem _ hj)

/-- When every sub-check passes, so does `mm_checkheap`. -/
theorem ChecksPass.mmCheckheap_eq (hc : ChecksPass fuel s) : mmCheckheap fuel s = some true := by
  obtain ⟨⟨-, h₁, h₂, h₃, h₄, h₅, h₆⟩, hl⟩ := hc
  rw [mmCheckheap]
  simp only [Option.bind_eq_bind]
  rw [h₁, Option.some_bind, h₂, Option.some_bind, h₃, Option.some_bind, h₄, Option.some_bind,
    h₅, Option.some_bind, h₆, Option.some_bind]
  exact checkLists_pass hl

end Verdict

/-! ## The walks over the implicit list -/

/-- Induction along the implicit list the way the checker's walks go: a walk that stops at
the end with any fuel, and moves from each block to the next with one unit of fuel, runs from
any block with fuel above the number of blocks left. -/
theorem walk_induct {a : Nat} {l : List Blk} {P : Nat → Nat → Prop}
    (stop : ∀ fuel, P (fuel + 1) (a + span l))
    (next : ∀ pre c post fuel, l = pre ++ c :: post →
      P fuel (a + span pre + c.size) → P (fuel + 1) (a + span pre)) :
    ∀ post pre fuel, l = pre ++ post → post.length < fuel → P fuel (a + span pre)
  | _, _, 0, _, hlen => absurd hlen (Nat.not_lt_zero _)
  | [], pre, fuel + 1, hb, _ => by rw [List.append_nil] at hb; rw [← hb]; exact stop fuel
  | c :: post, pre, fuel + 1, hb, hlen => next pre c post fuel hb (by
      have := walk_induct stop next post (pre ++ [c]) fuel (by simp [hb])
        (by simp only [List.length_cons] at hlen; omega)
      simpa [Nat.add_assoc] using this)

section Walk

variable {s : State} {h : Heap} (hinv : HeapInv s h)
include hinv

/-- The header of a block of the walk, and where the block lies in the arena. -/
theorem walk_block {pre post : List Blk} {c : Blk} (hb : h.blocks = pre ++ c :: post) :
    getSize s (s.heapStart + span pre) = c.size ∧ getAlloc s (s.heapStart + span pre) = c.alloc ∧
      c.size % 16 = 0 ∧ 16 ≤ c.size ∧ s.lo + 8 ≤ s.heapStart + span pre ∧
      s.heapStart + span pre + c.size + 8 ≤ s.brk := by
  have hx : BlockAt s.heapStart h.blocks (s.heapStart + span pre) c := hb ▸ blockAt_here _ _ _ _
  obtain ⟨h16, hmin, -, hlt⟩ := hinv.arena.blk hx
  have := hinv.arena.start
  exact ⟨(hinv.read hx).1, (hinv.read hx).2, h16, hmin, by omega, hlt⟩

/-- The epilogue: size 0, allocated. -/
theorem walk_epilogue :
    getSize s (s.heapStart + span h.blocks) = 0 ∧
      getAlloc s (s.heapStart + span h.blocks) = true := by
  have hw := hinv.walk
  rw [← List.append_nil h.blocks, tail_append] at hw
  exact ⟨getSize_of_hdr hw.2 (by norm_num) (by norm_num),
    getAlloc_of_hdr hw.2 (by norm_num) (by norm_num)⟩

/-- The footer of a free block of more than 16 bytes holds its size. -/
theorem walk_footer_size {pre post : List Blk} {c : Blk} (hb : h.blocks = pre ++ c :: post)
    (hc : c.alloc = false) (h16 : 16 < c.size) :
    extractSize (loadWord s.mem (headerToFooter s (s.heapStart + span pre))) = c.size := by
  have hx : BlockAt s.heapStart h.blocks (s.heapStart + span pre) c := hb ▸ blockAt_here _ _ _ _
  obtain ⟨f, -, hf⟩ := hinv.blkOk hx
  obtain ⟨hs, -, hmod, -, -, hlt⟩ := walk_block hinv hb
  have := hinv.arena.brk_le
  rw [headerToFooter, hs, show s.heapStart + span pre + 8 + c.size - dsize =
    s.heapStart + span pre + c.size - 8 by simp only [dsize, wsize]; omega, hf hc h16,
    extractSize_pack hmod (by omega)]

/-- A block of the walk and the block after it, or the epilogue, are not both free. -/
theorem walk_next_alloc {pre post : List Blk} {c : Blk} (hb : h.blocks = pre ++ c :: post) :
    getAlloc s (s.heapStart + span pre) = true ∨
      getAlloc s (s.heapStart + span pre + c.size) = true := by
  rw [(walk_block hinv hb).2.1]
  cases post with
  | nil =>
    have := (walk_epilogue hinv).2
    rw [hb] at this
    exact .inr (by simpa [Nat.add_assoc] using this)
  | cons d post =>
    have hd := (walk_block hinv (show h.blocks = (pre ++ [c]) ++ d :: post by simp [hb])).2.1
    simp only [span_append, span_cons, span_nil, Nat.add_zero, ← Nat.add_assoc] at hd
    rcases (List.chain'_append_cons_cons.1 (hb ▸ hinv.coalesced)).2.1 with hc | hd'
    · exact .inl hc
    · exact .inr (hd.trans hd')

/-- A walk that accepts every block of the implicit list returns true. -/
theorem walkBlocks_pass {bad : Nat → Bool}
    (hbad : ∀ pre c post, h.blocks = pre ++ c :: post → bad (s.heapStart + span pre) = false)
    {fuel : Nat} (hfuel : h.blocks.length < fuel) :
    walkBlocks s bad fuel s.heapStart = some true := by
  simpa using walk_induct (a := s.heapStart) (l := h.blocks)
    (P := fun fuel x => walkBlocks s bad fuel x = some true)
    (fun _ => by simp [walkBlocks, walk_epilogue hinv])
    (fun pre c post _ hb ih => by
      obtain ⟨hs, -, -, hmin, -⟩ := walk_block hinv hb
      rw [walkBlocks, if_pos (by omega), if_neg (by simp [hbad pre c post hb]), findNext, hs]
      exact ih)
    h.blocks [] fuel rfl hfuel

variable {fuel : Nat} (hfuel : h.blocks.length < fuel)
include hfuel

theorem checkEpilogue_pass : checkEpilogue s fuel s.heapStart = some true := by
  simpa using walk_induct (a := s.heapStart) (l := h.blocks)
    (P := fun fuel x => checkEpilogue s fuel x = some true)
    (fun _ => by simp [checkEpilogue, walk_epilogue hinv])
    (fun pre c post _ hb ih => by
      obtain ⟨hs, -, -, hmin, -⟩ := walk_block hinv hb
      rw [checkEpilogue, if_pos (by omega), findNext, hs]
      exact ih)
    h.blocks [] fuel rfl hfuel

theorem checkHeaderFooterMatch_pass :
    checkHeaderFooterMatch s fuel s.heapStart = some true := by
  simpa using walk_induct (a := s.heapStart) (l := h.blocks)
    (P := fun fuel x => checkHeaderFooterMatch s fuel x = some true)
    (fun _ => by simp [checkHeaderFooterMatch, walk_epilogue hinv])
    (fun pre c post _ hb ih => by
      obtain ⟨hs, ha, -⟩ := walk_block hinv hb
      rw [checkHeaderFooterMatch]
      by_cases hfree : (getSize s (s.heapStart + span pre) > minBlockSize &&
        !getAlloc s (s.heapStart + span pre)) = true
      · -- a free block of more than 16 bytes: its footer holds its size
        rw [if_pos hfree]
        simp only [hs, ha, minBlockSize, dsize, wsize, Bool.and_eq_true, decide_eq_true_eq,
          Bool.not_eq_true'] at hfree
        rw [if_neg (by rw [hs, walk_footer_size hinv hb hfree.2 hfree.1]; simp), findNext, hs]
        exact ih
      · rw [if_neg hfree])
    h.blocks [] fuel rfl hfuel

theorem checkContiguousFreeBlocks_pass :
    checkContiguousFreeBlocks s fuel s.heapStart (findNext s s.heapStart) = some true := by
  have key := walk_induct (a := s.heapStart) (l := h.blocks)
    (P := fun fuel x => ∀ prev, getAlloc s prev = true ∨ getAlloc s x = true →
      checkContiguousFreeBlocks s fuel prev x = some true)
    (fun _ _ _ => by simp [checkContiguousFreeBlocks, walk_epilogue hinv])
    (fun pre c post _ hb ih prev hprev => by
      obtain ⟨hs, -, -, hmin, -⟩ := walk_block hinv hb
      rw [checkContiguousFreeBlocks, if_pos (by omega),
        if_neg (by rcases hprev with e | e <;> simp [e]), findNext, hs]
      exact ih _ (walk_next_alloc hinv hb))
  obtain hb | ⟨c, post, hb⟩ : h.blocks = [] ∨ ∃ c post, h.blocks = c :: post := by
    cases h.blocks <;> simp
  · -- no block: `heap_start` is the epilogue
    have he := walk_epilogue hinv
    rw [hb, span_nil, Nat.add_zero] at he
    rw [findNext, he.1, Nat.add_zero]
    rw [hb] at hfuel
    simpa using key [] [] fuel (by simp [hb]) hfuel s.heapStart (.inl he.2)
  · have hc : h.blocks = [] ++ c :: post := hb
    rw [hb, List.length_cons] at hfuel
    have := key post [c] fuel hb (by omega) s.heapStart (by simpa using walk_next_alloc hinv hc)
    rw [findNext, (by simpa using (walk_block hinv hc).1 : getSize s s.heapStart = c.size)]
    simpa using this

end Walk

/-! ## The walks along the lists -/

section ListWalk

variable {s : State}

/-- A list walk over a `NULL`-terminated list whose nodes it accepts returns true. -/
theorem walkList_pass {bad : Nat → Bool} :
    ∀ {L : List Nat} {p fuel : Nat}, FreeChain s.mem p L 0 →
      (∀ x ∈ L, x ≠ 0 ∧ bad x = false) → L.length < fuel →
      walkList s bad fuel (L.headD 0) = some true
  | _, _, 0, _, _, hlen => absurd hlen (Nat.not_lt_zero _)
  | [], _, _ + 1, _, _, _ => by simp [walkList]
  | x :: xs, _, _ + 1, ⟨_, hn, hc⟩, hx, hlen => by
    obtain ⟨h0, hb⟩ := hx x (List.mem_cons_self _ _)
    rw [List.headD_cons, walkList, if_pos h0, if_neg (by simp [hb]), freeNext, hn]
    exact walkList_pass hc (fun y hy => hx y (List.mem_cons_of_mem _ hy))
      (by simp only [List.length_cons] at hlen; omega)

/-- `check_consecutive` on a list linked both ways returns true. -/
theorem checkConsecutive_pass :
    ∀ {L : List Nat} {p fuel : Nat}, FreeChain s.mem p L 0 → (∀ x ∈ L, x ≠ 0) →
      L.length < fuel → checkConsecutive s fuel (L.headD 0) = some true
  | _, _, 0, _, _, hlen => absurd hlen (Nat.not_lt_zero _)
  | [], _, _ + 1, _, _, _ => by simp [checkConsecutive]
  | [x], _, _ + 1, ⟨_, hn, _⟩, _, _ => by
    have : freeNext s x = 0 := hn
    simp [checkConsecutive, this]
  | x :: y :: xs, _, _ + 1, ⟨_, hn, hc⟩, hx, hlen => by
    have hn' : freeNext s x = y := hn
    have hp : freePrev s y = x := hc.1
    rw [List.headD_cons, checkConsecutive, hn', hp,
      if_pos (by simp [hx x (by simp), hx y (by simp)]), if_neg (by simp)]
    exact checkConsecutive_pass (L := y :: xs) hc (fun z hz => hx z (List.mem_cons_of_mem _ hz))
      (by simp only [List.length_cons] at hlen ⊢; omega)

/-- Along a `NULL`-terminated list the `k`-th node after the head is the list's `k`-th element,
and `NULL` at the end. -/
theorem chain_of_freeChain : ∀ {L : List Nat} {p : Nat}, FreeChain s.mem p L 0 →
    ∀ k ≤ L.length, chain s (L.headD 0) k = L.getD k 0
  | [], _, _, 0, _ => rfl
  | [], _, _, _ + 1, hk => absurd hk (by simp)
  | _ :: _, _, _, 0, _ => rfl
  | x :: xs, _, ⟨_, hn, hc⟩, k + 1, hk => by
    have hn' : freeNext s x = xs.headD 0 := hn
    rw [chain_succ_left, List.headD_cons, List.getD_cons_succ, hn']
    exact chain_of_freeChain hc k (by simp only [List.length_cons] at hk; omega)

/-- Floyd's test on a `NULL`-terminated list of distinct nodes returns true: the hare reaches
`NULL` after half the list, and before that it is always ahead of the tortoise. -/
theorem checkCycle_pass {L : List Nat} {p fuel : Nat} (hc : FreeChain s.mem p L 0)
    (h0 : ∀ x ∈ L, x ≠ 0) (hnd : L.Nodup) (hfuel : L.length < fuel) :
    checkCycle s fuel (L.headD 0) (L.headD 0) = some true := by
  have hch := chain_of_freeChain hc
  have hnz : ∀ k < L.length, chain s (L.headD 0) k ≠ 0 := fun k hk => by
    rw [hch k hk.le, List.getD_eq_getElem _ _ hk]; exact h0 _ (List.getElem_mem hk)
  have hend : chain s (L.headD 0) L.length = 0 := by
    rw [hch _ le_rfl, List.getD_eq_default _ _ le_rfl]
  have hinj : ∀ i j, i < j → j < L.length → chain s (L.headD 0) i ≠ chain s (L.headD 0) j :=
    fun i j hij hj => by
      rw [hch i (by omega), hch j hj.le, List.getD_eq_getElem _ _ (by omega),
        List.getD_eq_getElem _ _ hj, Ne, hnd.getElem_inj_iff]
      omega
  -- the hare meets `NULL` in round `L.length / 2`
  have hstop : ¬ CycleGoes s (L.headD 0) (L.length / 2) := fun ⟨h₁, h₂⟩ => by
    rcases show 2 * (L.length / 2) = L.length ∨ 2 * (L.length / 2) + 1 = L.length by
      omega with e | e
    · exact h₁ (by rw [e]; exact hend)
    · exact h₂ (by rw [e]; exact hend)
  have := checkCycle_run (L.length / 2) 0 fuel (by omega) (fun m _ hm => ⟨⟨hnz _ (by omega),
    hnz _ (by omega)⟩, fun hmeet => by
      -- before that round the hare is strictly ahead of the tortoise on distinct nodes
      have hmeet : chain s (L.headD 0) (2 * m + 2) = chain s (L.headD 0) (m + 1) := hmeet
      rcases show 2 * m + 2 < L.length ∨ 2 * m + 2 = L.length by omega with e | e
      · exact hinj (m + 1) (2 * m + 2) (by omega) e hmeet.symm
      · exact hnz (m + 1) (by omega) (by rw [← hmeet, e]; exact hend)⟩)
    (.inl (by rwa [Nat.zero_add]))
  rwa [Nat.mul_zero, chain_zero, Nat.zero_add, decide_eq_true hstop] at this

end ListWalk

section Lists

variable {s : State} {h : Heap} (hinv : HeapInv s h)
include hinv

/-- A node of a free list is a free block of the list's class inside the arena. -/
theorem listed_block {i x : Nat} (hx : x ∈ h.bins i) :
    getAlloc s x = false ∧ getListIndex (getSize s x) = i ∧ s.lo + 8 ≤ x ∧
      x + 24 ≤ s.brk := by
  obtain ⟨c, hc, ha, hi, -, hmin, -, hlt⟩ := hinv.lists.member hinv.arena hx
  have := (blockAt_bound hc).1
  have := hinv.arena.start
  obtain ⟨hs, ha'⟩ := hinv.read hc
  exact ⟨ha' ▸ ha, hs ▸ hi, by omega, by omega⟩

theorem list_passes {i fuel : Nat} (hi : i ∈ List.range' 1 (segListNum - 1))
    (hfuel : (h.bins i).length < fuel) : ListPasses fuel s i := by
  obtain ⟨hi₁, hi₂⟩ := List.mem_range'_1.1 hi
  have hhead : s.segList i = (h.bins i).headD 0 :=
    hinv.lists.heads i (by simp only [segListNum] at hi₂ ⊢; omega)
  have hc := hinv.lists.links i hi₁
  have h0 : ∀ x ∈ h.bins i, x ≠ 0 := fun x hx => by have := (listed_block hinv hx).2.2.1; omega
  refine ⟨hhead ▸ checkCycle_pass hc h0 (hinv.lists.nodup i) hfuel,
    hhead ▸ walkList_pass hc (fun x hx => ⟨h0 x hx, (listed_block hinv hx).1⟩) hfuel,
    hhead ▸ walkList_pass hc (fun x hx => ⟨h0 x hx, by
      obtain ⟨-, -, h₁, h₂⟩ := listed_block hinv hx; simp; omega⟩) hfuel,
    hhead ▸ checkConsecutive_pass hc h0 hfuel, ?_⟩
  -- the class of the head is the list's
  rw [checkBucket]
  split_ifs with hz
  · rfl
  obtain ⟨y, ys, hy⟩ : ∃ y ys, h.bins i = y :: ys :=
    List.exists_cons_of_ne_nil fun e => hz (by rw [hhead, e]; rfl)
  have hseg : getListIndex (getSize s (s.segList i)) = i := by
    have hmem : y ∈ h.bins i := by rw [hy]; exact List.mem_cons_self y ys
    rw [hhead, hy, List.headD_cons]; exact (listed_block hinv hmem).2.1
  simp only [hseg]
  exact hhead ▸ walkList_pass hc
    (fun x hx => ⟨h0 x hx, by simp [(listed_block hinv hx).2.1]⟩) hfuel

/-- On a heap satisfying the invariant every sub-check of `mm_checkheap` passes with fuel above
the arena's size. -/
theorem checks_pass {fuel : Nat} (hfuel : s.brk - s.lo < fuel) : ChecksPass fuel s := by
  have hlen : h.blocks.length < fuel := by
    have := length_le_span hinv.arena.sizes
    have := hinv.arena.brk; have := hinv.arena.start
    omega
  refine ⟨⟨?_, checkEpilogue_pass hinv hlen, walkBlocks_pass hinv (fun pre c post hb => ?_) hlen,
    walkBlocks_pass hinv (fun pre c post hb => ?_) hlen, checkHeaderFooterMatch_pass hinv hlen,
    walkBlocks_pass hinv (fun pre c post hb => ?_) hlen, checkContiguousFreeBlocks_pass hinv hlen⟩,
    fun i hi => list_passes hinv hi ((hinv.lists.length_le hinv.arena i).trans_lt hfuel)⟩
  · -- the prologue: size 0, allocated
    rw [checkPrologue, show s.heapStart - wsize = s.heapStart - 8 from rfl, hinv.arena.prologue,
      extractSize_pack (by norm_num) (by norm_num), extractAlloc_pack (by norm_num) (by norm_num)]
    rfl
  · obtain ⟨-, -, -, -, h₁, h₂⟩ := walk_block hinv hb; simp; omega
  · obtain ⟨hs, -, h16, -⟩ := walk_block hinv hb; simp [hs, h16, dsize, wsize]
  · obtain ⟨hs, -, -, hmin, -⟩ := walk_block hinv hb; simp [hs, minBlockSize, dsize, wsize]; omega

end Lists

/-- On every heap a client reaches, the heap checker raises no alarm: with fuel above the
arena's size every sub-check of `mm_checkheap` returns true, and so does `mm_checkheap`. -/
theorem checkheap_reach {σ : Sys} (hR : Reach InitOnce σ) (hst : σ.st.heapStart ≠ 0) {fuel : Nat}
    (hfuel : σ.st.brk - σ.st.lo < fuel) :
    ChecksPass fuel σ.st ∧ mmCheckheap fuel σ.st = some true := by
  rcases hR.sysInv with ⟨hU, -⟩ | ⟨-, h, hinv, -⟩
  · exact absurd hU.1 hst
  · exact ⟨checks_pass hinv hfuel, (checks_pass hinv hfuel).mmCheckheap_eq⟩

/-- After `mm_init` and `malloc(1)`, with fuel 2100. -/
theorem checkheap_reach_mallocSys : Reach InitOnce mallocSys ∧ mallocSys.st.heapStart ≠ 0 ∧
    mallocSys.st.brk - mallocSys.st.lo < 2100 ∧
    ChecksPass 2100 mallocSys.st ∧ mmCheckheap 2100 mallocSys.st = some true :=
  ⟨reach_mallocSys, by decide, by decide,
    checkheap_reach reach_mallocSys (by decide) (by decide)⟩

end SegMalloc.CheckerAccepts
