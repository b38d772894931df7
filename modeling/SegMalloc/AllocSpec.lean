import SegMalloc.FreeSpec

/-! The allocation path of `malloc` on the abstract heap: the chosen free block leaves
its list, is marked allocated with the next header's `prev_alloc` set, and `split_block`
returns its surplus of at least 16 bytes to the lists as a free block. -/
namespace SegMalloc.AllocSpec
open Memory Header Block FreeList Coalesce Layout Invariant CoalesceSpec FreeSpec

open State

/-- The adjusted block size `malloc` computes for a request of `size` bytes. -/
def adjustSize (size : Nat) : Nat :=
  if size ≤ wsize then minBlockSize else roundUp (usize (size + wsize)) dsize

/-- The part of `malloc` between unlisting the chosen block and `split_block`: the block
is marked allocated and the header after it gets `prev_alloc` and `prev_mini`. -/
def markAlloc (s : State) (block : Nat) : State :=
  let blockSize := getSize s block
  let prevAlloc := getPrevAlloc s block
  let prevMini := getPrevMini s block
  let s := writeBlock s block blockSize true prevAlloc prevMini
  let blockNext := findNext s block
  let blockNextSize := getSize s blockNext
  let blockNextAlloc := getAlloc s blockNext
  let blockNextPrevMini := cond true (blockSize == minBlockSize) false
  updateBlock s blockNext blockNextSize blockNextAlloc true blockNextPrevMini

section Mark

variable {s : State} {h : Heap} {pre post : List Blk} {F : Blk}

/-- Unlisting the chosen free block and marking it allocated keeps the invariant, the
block now allocated and off its list. -/
theorem markAlloc_spec (hinv : HeapInv s h) (hbs : h.blocks = pre ++ F :: post)
    (hF : F.alloc = false) (hxi : s.heapStart + span pre ∈ h.bins (getListIndex F.size)) :
    ∃ s₃, (deleteNormalOrMini s (s.heapStart + span pre)).map
        (fun s₁ => markAlloc s₁ (s.heapStart + span pre)) = some s₃ ∧
      HeapInv s₃ ⟨pre ++ ⟨F.size, true⟩ :: post,
        (h.erase (getListIndex F.size) (s.heapStart + span pre)).bins⟩ ∧
      s₃.lo = s.lo ∧ s₃.brk = s.brk ∧ s₃.heapStart = s.heapStart ∧
      Agree (fun y => OutFree s.heapStart h.blocks y ∧
        (y < s.heapStart + span pre + F.size ∨ s.heapStart + span pre + F.size + 8 ≤ y))
        s.mem s₃.mem := by
  have har := hinv.arena
  have hFat : BlockAt s.heapStart h.blocks (s.heapStart + span pre) F := by
    rw [hbs]; exact blockAt_here _ _ _ _
  obtain ⟨s₁, hdel, har₁, hL₁, hwa₁, hfb₁, hlo₁, hbrk₁, hst₁⟩ :=
    deleteNormalOrMini_arena har hinv.lists hFat (hinv.read hFat).1 hxi
  have hwalk₁ : Tail s₁.mem s₁.heapStart (true, false) (pre ++ F :: post) := by
    rw [hst₁, ← hbs]; exact tail_of_walkAgree hwa₁ hinv.walk
  have har₁' : Arena s₁ (pre ++ F :: post) := hbs ▸ har₁
  obtain ⟨⟨hseg, hnext, hag, hlo, hbrk, hst, hsl⟩, hsz, -, hpa, hpm, hfn, hns, hna⟩ :=
    rewriteBlock_spec (a := true) har₁' hwalk₁ rfl rfl
  rw [hst₁] at hseg hnext hag hsz hpa hpm hfn hns hna hlo hbrk hst hsl
  -- the block after the chosen one is allocated, or the epilogue
  have hRa : ∀ c ∈ post.head?, c.alloc = true := fun c hc => by
    rcases (List.chain'_cons'.1 (hbs ▸ hinv.coalesced).right_of_append).1 c hc with h | h
    · simp [hF] at h
    · exact h
  have hnot : ∀ i, s.heapStart + span pre ∉ (h.erase (getListIndex F.size) _).bins i :=
    fun i hx => ((hinv.lists.mem_erase har hxi).1 hx).2 rfl
  have hcode : markAlloc s₁ (s.heapStart + span pre) =
      updateBlock (writeBlock s₁ (s.heapStart + span pre) F.size true
        (endFlags (true, false) pre).1 (endFlags (true, false) pre).2)
        (s.heapStart + span pre + F.size) (hdrOf post).1 (hdrOf post).2 true (F.size == 16) := by
    simp only [markAlloc, hsz, hpa, hpm, hfn, hns, hna, cond_true, minBlockSize_eq]
  rw [← hcode] at hseg hnext hag hlo hbrk hst hsl
  have hchain := hbs ▸ hinv.coalesced
  have hok₃ : SizesOk (pre ++ ⟨F.size, true⟩ :: post) := by
    have hok := har.sizes
    rw [hbs, sizesOk_append, sizesOk_cons] at hok
    exact sizesOk_append.2 ⟨hok.1, sizesOk_cons.2 hok.2⟩
  have har₃ : Arena (markAlloc s₁ (s.heapStart + span pre)) (pre ++ ⟨F.size, true⟩ :: post) := by
    refine ⟨by rw [hst, hlo, ← hst₁]; exact har₁.start, ?_, by rw [hbrk]; exact har₁.brk_le, hok₃,
      ?_⟩
    · rw [hst, hbrk, ← har₁.brk, hst₁, Heap.erase_blocks, hbs]; simp
    · rw [hst, ← hst₁, ← har₁.prologue, hst₁]
      exact loadWord_congr fun y _ h₂ => hag y (.inl (by have := har.start; omega))
  refine ⟨_, by rw [hdel]; rfl, ⟨har₃, ?_, hL₁.rewrite har₁ hbs rfl
      (by rw [hst₁]; exact hnot) (by rw [hst₁]; exact hag) hsl (hst.trans hst₁.symm), ?_, ?_⟩,
    hlo.trans hlo₁, hbrk.trans hbrk₁, hst,
    (hfb₁.mono fun y hy => hy.1.not_freeBody).trans (hag.mono ?_)⟩
  · -- the walk, the block now allocated
    show Tail _ _ _ (pre ++ ⟨F.size, true⟩ :: post)
    rw [hst, show pre ++ ⟨F.size, true⟩ :: post = pre ++ [⟨F.size, true⟩] ++ post by simp,
      tail_append, endFlags_append_singleton]
    exact ⟨hseg, by simpa [Nat.add_assoc] using tail_of_hdTail hnext hRa⟩
  · -- every free block is still listed
    intro z c hz hc
    rw [hst] at hz
    have hzx : z ≠ s.heapStart + span pre := by
      rintro rfl
      obtain rfl := blockAt_unique hok₃ hz (blockAt_here _ _ _ _)
      simp at hc
    have hz' : BlockAt s.heapStart h.blocks z c := by rw [hbs]; exact blockAt_replace hz hzx rfl
    exact (hinv.lists.mem_erase har hxi).2 ⟨hinv.listed z c hz' hc, hzx⟩
  · -- no two free neighbours: the chosen block is now allocated
    obtain ⟨hl, hr, hj⟩ := List.chain'_append.1 hchain
    exact List.chain'_append.2 ⟨hl, List.chain'_cons'.2 ⟨fun c _ => .inl rfl,
      (List.chain'_cons'.1 hr).2⟩, fun c _ d hd => by
        obtain rfl := Option.mem_some_iff.1 hd; exact .inr rfl⟩
  · -- the frame: outside the chosen block and the header after it
    intro y ⟨hy, hr⟩
    rcases hy _ F hFat hF with h | h
    · exact .inl h
    · rcases hr with h' | h'
      · omega
      · exact .inr h'

end Mark

section Split

/-- The block list with the allocated `⟨S, true⟩` split into `⟨asize, true⟩` and a free
surplus keeps the sizes' discipline. -/
theorem sizesOk_split {pre post : List Blk} {S asize : Nat}
    (hok : SizesOk (pre ++ ⟨S, true⟩ :: post)) (h16 : asize % 16 = 0) (hmin : 16 ≤ asize)
    (hge : 16 ≤ S - asize) : SizesOk (pre ++ [⟨asize, true⟩] ++ ⟨S - asize, false⟩ :: post) := by
  rw [sizesOk_append, sizesOk_cons] at hok
  exact sizesOk_append.2 ⟨sizesOk_append.2 ⟨hok.1, sizesOk_cons.2 ⟨⟨h16, hmin⟩,
    fun _ h => nomatch h⟩⟩, sizesOk_cons.2 ⟨⟨by have := hok.2.1.1; simp only at this ⊢; omega, hge⟩,
    hok.2.2⟩⟩

/-- A block of the split list is one of the two halves or a block of the old list. -/
theorem blockAt_split {a : Nat} {pre post : List Blk} {S asize z : Nat} {c : Blk}
    (hle : asize ≤ S)
    (hz : BlockAt a (pre ++ [⟨asize, true⟩] ++ ⟨S - asize, false⟩ :: post) z c) :
    (z = a + span pre ∧ c = ⟨asize, true⟩) ∨ (z = a + span pre + asize ∧ c = ⟨S - asize, false⟩) ∨
      BlockAt a (pre ++ ⟨S, true⟩ :: post) z c := by
  have hsplit : pre ++ ⟨S, true⟩ :: post = pre ++ [⟨S, true⟩] ++ post := by simp
  rw [show pre ++ [⟨asize, true⟩] ++ ⟨S - asize, false⟩ :: post =
    pre ++ [⟨asize, true⟩, ⟨S - asize, false⟩] ++ post by simp] at hz
  rcases blockAt_append.1 hz with hz | hz
  · rcases blockAt_append.1 hz with hz | hz
    · exact .inr (.inr (by rw [hsplit]; exact blockAt_append.2 (.inl (blockAt_append.2 (.inl hz)))))
    · rcases blockAt_cons.1 hz with ⟨rfl, rfl⟩ | hz
      · exact .inl ⟨rfl, rfl⟩
      · rcases blockAt_cons.1 hz with ⟨rfl, rfl⟩ | hz
        · exact .inr (.inl ⟨rfl, rfl⟩)
        · simp at hz
  · have e : a + span (pre ++ [⟨asize, true⟩, ⟨S - asize, false⟩]) =
        a + span (pre ++ [⟨S, true⟩]) := by simp; omega
    rw [e] at hz
    exact .inr (.inr (by rw [hsplit]; exact blockAt_append.2 (.inr hz)))

variable {s s₄ s₅ s₆ : State} {h : Heap} {pre post : List Blk} {S asize : Nat}

/-- `split_block` with a surplus: the header of the allocated part, the header of the surplus
and the update of the header after them leave the surplus ready for `coalesce_block`. -/
theorem split_pre (hinv : HeapInv s h) (hbs : h.blocks = pre ++ ⟨S, true⟩ :: post)
    (hle : asize ≤ S) (h16 : asize % 16 = 0) (hmin : 16 ≤ asize) (hSa : S ≠ asize)
    (hs₄ : writeBlock s (s.heapStart + span pre) asize true (endFlags (true, false) pre).1
      (endFlags (true, false) pre).2 = s₄)
    (hs₅ : writeBlock s₄ (s.heapStart + span pre + asize) (S - asize) false true
      (asize == 16) = s₅)
    (hs₆ : updateBlock s₅ (s.heapStart + span pre + S) (hdrOf post).1 (hdrOf post).2 false
      (S - asize == 16) = s₆) :
    splitBlock s (s.heapStart + span pre) asize =
        insertNormalOrMini s₆ (s.heapStart + span pre + asize) ∧
      PreCoalesce s₆ { h with blocks := (pre ++ [⟨asize, true⟩]) ++ ⟨S - asize, false⟩ :: post }
        (pre ++ [⟨asize, true⟩]) ⟨S - asize, false⟩ post ∧
      Agree (fun y => y < s.heapStart + span pre ∨ s.heapStart + span pre + S + 8 ≤ y)
        s.mem s₆.mem ∧ s₆.lo = s.lo ∧ s₆.brk = s.brk ∧ s₆.heapStart = s.heapStart := by
  have har := hinv.arena
  obtain ⟨hsegL, hAok, htl, hokL, ⟨hS16, -⟩, hokR, hfit⟩ :=
    walk_pieces (hbs ▸ har) (hbs ▸ hinv.walk)
  obtain ⟨hsz, -, hpa, hpm⟩ := (hbs ▸ har).read (blockAt_here _ _ _ _) hAok
  simp only at hsz hS16 htl hfit
  have hge : 16 ≤ S - asize := by omega
  -- the two headers and the update
  have hA₄ := writeBlock_blkOk s (s.heapStart + span pre) asize true
    (endFlags (true, false) pre).1 (endFlags (true, false) pre).2 h16 (by omega) hmin
  have hag₄ := writeBlock_agree s (s.heapStart + span pre) asize true
    (endFlags (true, false) pre).1 (endFlags (true, false) pre).2 h16 (by omega) hmin
  have hR₅ := writeBlock_blkOk s₄ (s.heapStart + span pre + asize) (S - asize) false true
    (asize == 16) (by omega) (by omega) hge
  have hag₅ := writeBlock_agree s₄ (s.heapStart + span pre + asize) (S - asize) false true
    (asize == 16) (by omega) (by omega) hge
  have hf₄ : s₄.lo = s.lo ∧ s₄.brk = s.brk ∧ s₄.heapStart = s.heapStart ∧
      s₄.segList = s.segList := by subst hs₄; simp
  have hf₅ : s₅.lo = s.lo ∧ s₅.brk = s.brk ∧ s₅.heapStart = s.heapStart ∧
      s₅.segList = s.segList := by subst hs₅; simp [hf₄]
  rw [hs₄] at hA₄ hag₄
  rw [hs₅] at hR₅ hag₅
  have hag₄₅ : Agree (fun y => y < s.heapStart + span pre ∨ s.heapStart + span pre + S ≤ y)
      s.mem s₅.mem :=
    (hag₄.mono fun y hy => by omega).trans (hag₅.mono fun y hy => by omega)
  have htl₅ := tail_frame_outside hokR (fun y h₁ _ => hag₄₅ y (.inr h₁)) htl
  have hn := hdrOf_size hokR (by omega)
  have hw₅ := hdTail_hdr (hdTail_of_tail htl₅)
  have hcode : splitBlock s (s.heapStart + span pre) asize = insertNormalOrMini s₆
      (s.heapStart + span pre + asize) := by
    simp only [splitBlock, hsz, usub_of_le hle (by omega), minBlockSize_eq, ge_iff_le, hge,
      if_true, hpa, hpm, hs₄, findNext, getSize_of_hdr hA₄.1 h16 (show asize < 2 ^ 64 by omega),
      cond_true, hs₅, getSize_of_hdr hR₅.1 (show (S - asize) % 16 = 0 by omega)
        (show S - asize < 2 ^ 64 by omega),
      show s.heapStart + span pre + asize + (S - asize) = s.heapStart + span pre + S by omega,
      getSize_of_hdr hw₅ hn.1 hn.2, getAlloc_of_hdr hw₅ hn.1 hn.2, hs₆]
  -- the state before the surplus is listed
  have hf₆ : s₆.lo = s.lo ∧ s₆.brk = s.brk ∧ s₆.heapStart = s.heapStart ∧
      s₆.segList = s.segList := by subst hs₆; simp [updateBlock, hf₅]
  have hag₆ : Agree (fun y => y < s.heapStart + span pre ∨ s.heapStart + span pre + S + 8 ≤ y)
      s.mem s₆.mem := by
    subst hs₆
    exact (hag₄₅.mono fun y hy => by omega).trans (agree_storeWord _ _ fun y hy => by omega)
  have hkeep₆ : ∀ y, y < s.heapStart + span pre + S ∨ s.heapStart + span pre + S + 8 ≤ y →
      s₆.mem y = s₅.mem y := fun y hy => by
    subst hs₆; exact storeWord_apply_of_lt _ hy
  have hAat : BlockAt s.heapStart h.blocks (s.heapStart + span pre) ⟨S, true⟩ := by
    rw [hbs]; exact blockAt_here _ _ _ _
  -- listed blocks lie outside the split block
  have hout : ∀ i z, z ∈ h.bins i → ∀ c, BlockAt s.heapStart h.blocks z c →
      z + c.size ≤ s.heapStart + span pre ∨ s.heapStart + span pre + S ≤ z := by
    intro i z hz c hc
    obtain ⟨d, hd, hda, -⟩ := hinv.lists.members i z hz
    obtain rfl := blockAt_unique har.sizes hc hd
    rcases blockAt_apart har.sizes hc hAat with ⟨-, rfl⟩ | h' | h'
    · simp at hda
    · exact .inl h'
    · exact .inr h'
  have hsplit : h.blocks = pre ++ [⟨S, true⟩] ++ post := by rw [hbs]; simp
  have hspan : span [(⟨asize, true⟩ : Blk), ⟨S - asize, false⟩] = span [(⟨S, true⟩ : Blk)] := by
    simp; omega
  have he₁ : s.heapStart + span (pre ++ [⟨asize, true⟩]) = s.heapStart + span pre + asize := by
    simp [Nat.add_assoc]
  have hch : (pre ++ ⟨S, true⟩ :: post).Chain' NotBothFree := hbs ▸ hinv.coalesced
  have hback : ∀ z c, BlockAt s.heapStart
      (pre ++ [⟨asize, true⟩] ++ ⟨S - asize, false⟩ :: post) z c →
      (z = s.heapStart + span pre ∧ c = ⟨asize, true⟩) ∨
        (z = s.heapStart + span pre + asize ∧ c = ⟨S - asize, false⟩) ∨
        BlockAt s.heapStart h.blocks z c := fun z c hz => by
    rw [hbs]; exact blockAt_split hle hz
  have hok₆ := sizesOk_split (hbs ▸ har.sizes) h16 hmin hge
  have hpc : PreCoalesce s₆ { h with blocks := (pre ++ [⟨asize, true⟩]) ++ ⟨S - asize, false⟩ :: post }
      (pre ++ [⟨asize, true⟩]) ⟨S - asize, false⟩ post := by
    have hseg : Seg s₅.mem s.heapStart (true, false)
        (pre ++ [⟨asize, true⟩] ++ [⟨S - asize, false⟩]) := by
      refine seg_append.2 ⟨seg_append.2 ⟨seg_frame_outside hokL
        (fun y _ h₂ => hag₄₅ y (.inl h₂)) hsegL, ⟨blkOk_frame (fun y hy => loadWord_congr
          fun z h₁ h₂ => hag₅ z (.inl ?_)) hA₄, trivial⟩⟩, ?_⟩
      · simp only [HdrFtr, or_false] at hy
        rcases hy with rfl | ⟨h', -⟩
        · omega
        · simp at h'
      · rw [endFlags_append_singleton, show s.heapStart + span (pre ++ [⟨asize, true⟩]) =
          s.heapStart + span pre + asize by simp [Nat.add_assoc]]
        exact ⟨hR₅, trivial⟩
    refine ⟨rfl, rfl, ⟨by rw [hf₆.2.2.1, hf₆.1]; exact har.start, ?_,
        (by rw [hf₆.2.1]; exact har.brk_le), ?_, ?_⟩, ?_, ?_, ?_, ?_, ?_, ?_, ?_⟩
    · rw [hf₆.2.2.1, hf₆.2.1, ← har.brk, hbs]; simp; omega
    · exact hok₆
    · rw [hf₆.2.2.1, ← har.prologue]
      exact loadWord_congr fun y _ h₂ => hag₆ y (.inl (by have := har.start; omega))
    · rw [hf₆.2.2.1]
      exact seg_frame_outside (sizesOk_append.2 ⟨(sizesOk_append.1 hok₆).1,
        (sizesOk_cons.2 ⟨(sizesOk_cons.1 (sizesOk_append.1 hok₆).2).1, fun _ h => nomatch h⟩)⟩)
        (fun y _ h₂ => hkeep₆ y (.inl (by simp at h₂; omega))) hseg
    · rw [hf₆.2.2.1, show s.heapStart + span (pre ++ [⟨asize, true⟩]) + (S - asize) =
        s.heapStart + span pre + S by simp; omega]
      subst hs₆
      exact hdTail_update (f := (⟨S - asize, false⟩ : Blk).flags) hokR (hdTail_of_tail htl₅)
    · -- the lists: no member lies in the split block
      refine (hinv.lists.frame (by rw [hf₆.2.2.2]) (by rw [hf₆.2.2.1])
        fun i z hz y h₁ h₂ => ?_).reblock fun i z hz c hc => ?_
      · obtain ⟨c, hc, -, hlk⟩ := hinv.lists.link_in_block har hz
        rcases hout i z hz c hc with h' | h'
        · exact hag₆ y (.inl (by omega))
        · exact hag₆ y (.inr (by omega))
      · rw [hf₆.2.2.1] at hc ⊢
        have h' := hout i z hz c hc
        have hc16 := (har.blk hc).2.1
        rw [hsplit] at hc
        rw [show pre ++ [⟨asize, true⟩] ++ ⟨S - asize, false⟩ :: post =
          pre ++ [⟨asize, true⟩, ⟨S - asize, false⟩] ++ post by simp]
        refine blockAt_splice hc (fun d hd => ?_) hspan
        obtain ⟨rfl, -⟩ | hd := blockAt_cons.1 hd
        · omega
        · simp at hd
    · -- the surplus lies inside the split block, where no member is
      intro i hz
      rw [hf₆.2.2.1, he₁] at hz
      obtain ⟨c, hc, -⟩ := hinv.lists.members i _ hz
      rcases hout i _ hz c hc with h' | h' <;> omega
    · -- every other free block was listed
      intro z c hz hc hzx
      rw [hf₆.2.2.1] at hz hzx
      rw [he₁] at hzx
      rcases hback z c hz with ⟨-, rfl⟩ | ⟨rfl, -⟩ | hz'
      · simp at hc
      · exact absurd rfl hzx
      · exact hinv.listed z c hz' hc
    · exact List.chain'_append.2 ⟨hch.left_of_append, List.chain'_singleton _, fun c _ d hd => by
        obtain rfl := Option.mem_some_iff.1 hd; exact .inr rfl⟩
    · exact (List.chain'_cons'.1 hch.right_of_append).2
  exact ⟨hcode, hpc, hag₆, hf₆.1, hf₆.2.1, hf₆.2.2.1⟩

/-- `split_block` on an allocated block of `S` bytes followed by an allocated block or the
epilogue: a surplus of at least 16 bytes becomes a free block on its list. -/
theorem splitBlock_spec (hinv : HeapInv s h) (hbs : h.blocks = pre ++ ⟨S, true⟩ :: post)
    (hRa : ∀ c ∈ post.head?, c.alloc = true) (hle : asize ≤ S) (h16 : asize % 16 = 0)
    (hmin : 16 ≤ asize) :
    ∃ h', HeapInv (splitBlock s (s.heapStart + span pre) asize) h' ∧
      h'.blocks = pre ++ ⟨asize, true⟩ ::
        (if S = asize then post else ⟨S - asize, false⟩ :: post) ∧
      (splitBlock s (s.heapStart + span pre) asize).lo = s.lo ∧
      (splitBlock s (s.heapStart + span pre) asize).brk = s.brk ∧
      (splitBlock s (s.heapStart + span pre) asize).heapStart = s.heapStart ∧
      Agree (fun y => OutFree s.heapStart h.blocks y ∧
        (y < s.heapStart + span pre ∨ s.heapStart + span pre + S + 8 ≤ y))
        s.mem (splitBlock s (s.heapStart + span pre) asize).mem := by
  by_cases hSa : S = asize
  · -- nothing to split off
    subst hSa
    have hb : BlockAt s.heapStart h.blocks (s.heapStart + span pre) ⟨S, true⟩ := by
      rw [hbs]; exact blockAt_here _ _ _ _
    have hsz := (hinv.read hb).1
    have hlt := (hinv.arena.blk hb).2.2.2
    have := hinv.arena.brk_le
    simp only at hsz hlt
    have hcode : splitBlock s (s.heapStart + span pre) S = s := by
      simp [splitBlock, hsz, usub_of_le (le_refl S) (by omega)]
    refine ⟨h, by rw [hcode]; exact hinv, by simp [hbs], by rw [hcode], by rw [hcode],
      by rw [hcode], by rw [hcode]; exact Agree.refl _ _⟩
  · obtain ⟨hcode, hpc, hag₆, hlo, hbrk, hst⟩ := split_pre hinv hbs hle h16 hmin hSa rfl rfl rfl
    have he₁ : s.heapStart + span (pre ++ [⟨asize, true⟩]) = s.heapStart + span pre + asize := by
      simp [Nat.add_assoc]
    obtain ⟨-, hc⟩ := coalesce_alone hpc (by simp) hRa
    rw [hst, he₁] at hc
    rw [hcode]
    refine ⟨_, hc.inv, by rw [hc.blocks, coalesceBlocks, mergedSize, absorbPrev_of_alloc (by simp),
      absorbNext_of_alloc hRa, if_neg hSa]; simp, hc.lo.trans hlo, hc.brk.trans hbrk,
      hc.heapStart.trans hst, (hag₆.mono fun y hy => hy.2).trans
        (hc.frame.mono fun y hy => ⟨fun z c hz hc' => ?_, ?_⟩)⟩
    · -- outside every free block of the split list
      rw [hst] at hz
      rcases blockAt_split hle hz with ⟨-, rfl⟩ | ⟨rfl, rfl⟩ | hz'
      · simp at hc'
      · rcases hy.2 with h' | h'
        · exact .inl (by omega)
        · exact .inr (by simp only; omega)
      · exact hy.1 z c (hbs ▸ hz') hc'
    · rw [absorbNext_of_alloc hRa]
      simp only [add_zero]
      omega

end Split

end SegMalloc.AllocSpec
