import SegMalloc.CoalesceSpec
import SegMalloc.Api

/-! `free` and `extend_heap` on the abstract heap: each writes a free block (the freed
block, or the arena's new bytes), sets the flags of the header after it, and hands the
block to `coalesce_block`. -/
namespace SegMalloc.FreeSpec
open Memory Header Block Coalesce Api Layout Invariant CoalesceSpec

open State

/-- The walk around one block, and the sizes it needs. -/
theorem walk_pieces {s : State} {pre post : List Blk} {F : Blk} (har : Arena s (pre ++ F :: post))
    (hw : Tail s.mem s.heapStart (true, false) (pre ++ F :: post)) :
    Seg s.mem s.heapStart (true, false) pre ∧
      BlkOk s.mem (s.heapStart + span pre) (endFlags (true, false) pre) F ∧
      Tail s.mem (s.heapStart + span pre + F.size) F.flags post ∧
      SizesOk pre ∧ (F.size % 16 = 0 ∧ 16 ≤ F.size) ∧ SizesOk post ∧
      s.heapStart + span pre + F.size + span post + 8 ≤ 2 ^ 64 := by
  have hok := har.sizes
  have hfit := har.fit
  rw [sizesOk_append, sizesOk_cons] at hok
  rw [tail_append] at hw
  simp only [span_append, span_cons] at hfit
  exact ⟨hw.1, hw.2.1, hw.2.2, hok.1, hok.2.1, hok.2.2, by omega⟩

/-- Rewriting the block at `x` as `⟨F.size, al⟩` with its flags kept, and the header after
it with the new block's flags, as `free` and `malloc` do; with the words the code reads on
the way. -/
theorem rewriteBlock_spec {s s₁ s₂ : State} {pre post : List Blk} {F : Blk} {a : Bool}
    (har : Arena s (pre ++ F :: post))
    (hw : Tail s.mem s.heapStart (true, false) (pre ++ F :: post))
    (hs₁ : writeBlock s (s.heapStart + span pre) F.size a (endFlags (true, false) pre).1
      (endFlags (true, false) pre).2 = s₁)
    (hs₂ : updateBlock s₁ (s.heapStart + span pre + F.size) (hdrOf post).1 (hdrOf post).2 a
      (F.size == 16) = s₂) :
    (Seg s₂.mem s.heapStart (true, false) (pre ++ [⟨F.size, a⟩]) ∧
      HdTail s₂.mem (s.heapStart + span pre + F.size) (⟨F.size, a⟩ : Blk).flags post ∧
      Agree (fun y => y < s.heapStart + span pre ∨ s.heapStart + span pre + F.size + 8 ≤ y)
        s.mem s₂.mem ∧
      s₂.lo = s.lo ∧ s₂.brk = s.brk ∧ s₂.heapStart = s.heapStart ∧ s₂.segList = s.segList) ∧
    (getSize s (s.heapStart + span pre) = F.size ∧ getAlloc s (s.heapStart + span pre) = F.alloc ∧
      getPrevAlloc s (s.heapStart + span pre) = (endFlags (true, false) pre).1 ∧
      getPrevMini s (s.heapStart + span pre) = (endFlags (true, false) pre).2 ∧
      findNext s₁ (s.heapStart + span pre) = s.heapStart + span pre + F.size ∧
      getSize s₁ (s.heapStart + span pre + F.size) = (hdrOf post).1 ∧
      getAlloc s₁ (s.heapStart + span pre + F.size) = (hdrOf post).2) := by
  obtain ⟨hsegL, hFok, htl, hokL, ⟨hF16, hFmin⟩, hokR, hfit⟩ := walk_pieces har hw
  have hB := writeBlock_blkOk s (s.heapStart + span pre) F.size a
    (endFlags (true, false) pre).1 (endFlags (true, false) pre).2 hF16 (by omega) hFmin
  have hag₁ := writeBlock_agree s (s.heapStart + span pre) F.size a
    (endFlags (true, false) pre).1 (endFlags (true, false) pre).2 hF16 (by omega) hFmin
  have hf₁ : s₁.lo = s.lo ∧ s₁.brk = s.brk ∧ s₁.heapStart = s.heapStart ∧
      s₁.segList = s.segList := by subst hs₁; simp
  rw [hs₁] at hB hag₁
  have htl₁ := tail_frame_outside hokR (fun y h₁ _ => hag₁ y (.inr h₁)) htl
  have hn := hdrOf_size hokR (by omega)
  have hrd := har.read (blockAt_here _ _ _ _) hFok
  have hw₁ := hdTail_hdr (hdTail_of_tail htl₁)
  subst hs₂
  simp only [updateBlock, State.setWord_mem, State.setWord_lo, State.setWord_brk,
    State.setWord_heapStart, State.setWord_segList]
  refine ⟨⟨seg_append.2 ⟨seg_frame_outside hokL (fun y _ h₂ => (storeWord_apply_of_lt _
      (.inl (by omega))).trans (hag₁ y (.inl h₂))) hsegL, ⟨blkOk_frame (fun y hy =>
      loadWord_congr fun z h₁ h₂ => storeWord_apply_of_lt _ ?_) hB, trivial⟩⟩,
    hdTail_update (f := (⟨F.size, a⟩ : Blk).flags) hokR (hdTail_of_tail htl₁),
    (hag₁.mono fun y hy => by omega).trans (agree_storeWord _ _ fun y hy => by omega), hf₁⟩,
    hrd.1, hrd.2.1, hrd.2.2.1, hrd.2.2.2,
    by rw [findNext, getSize_of_hdr hB.1 hF16 (show F.size < 2 ^ 64 by omega)],
    getSize_of_hdr hw₁ hn.1 hn.2, getAlloc_of_hdr hw₁ hn.1 hn.2⟩
  simp only [HdrFtr, or_false] at hy
  rcases hy with rfl | ⟨-, -, rfl⟩ <;> omega

section Free

variable {s s₁ s₂ : State} {h : Heap} {pre post : List Blk} {A : Blk}

/-- `free` writes the block back as free and the header after it with the block's flags:
the state `coalesce_block` expects. -/
theorem free_pre (hinv : HeapInv s h) (hbs : h.blocks = pre ++ A :: post) (hA : A.alloc = true)
    (hs₁ : writeBlock s (s.heapStart + span pre) A.size false (endFlags (true, false) pre).1
      (endFlags (true, false) pre).2 = s₁)
    (hs₂ : updateBlock s₁ (s.heapStart + span pre + A.size) (hdrOf post).1 (hdrOf post).2 false
      (A.size == 16) = s₂) :
    free s (s.heapStart + span pre + 8) = (coalesceBlock s₂ (s.heapStart + span pre)).map Prod.fst ∧
      PreCoalesce s₂ { h with blocks := pre ++ ⟨A.size, false⟩ :: post } pre ⟨A.size, false⟩ post ∧
      Agree (fun y => y < s.heapStart + span pre ∨ s.heapStart + span pre + A.size + 8 ≤ y)
        s.mem s₂.mem ∧ s₂.lo = s.lo ∧ s₂.brk = s.brk ∧ s₂.heapStart = s.heapStart := by
  have har := hinv.arena
  obtain ⟨⟨hseg, hnext, hag, hlo, hbrk, hst, hsl⟩, hsz, -, hpa, hpm, hfn, hns, hna⟩ :=
    rewriteBlock_spec (hbs ▸ har) (hbs ▸ hinv.walk) hs₁ hs₂
  have hnot : ∀ i, s.heapStart + span pre ∉ h.bins i := fun i hx => by
    obtain ⟨c, hc, hca, -⟩ := hinv.lists.members i _ hx
    have := blockAt_unique har.sizes hc (by rw [hbs]; exact blockAt_here _ _ _ _)
    subst this; simp [hA] at hca
  have hsizes := har.sizes
  rw [hbs, sizesOk_append, sizesOk_cons] at hsizes
  have hst₀ := har.start
  refine ⟨?_, ⟨rfl, rfl, ⟨by rw [hst, hlo]; exact hst₀, by rw [hst, hbrk, ← har.brk, hbs]; simp,
      by rw [hbrk]; exact har.brk_le, sizesOk_append.2 ⟨hsizes.1, sizesOk_cons.2 hsizes.2⟩, ?_⟩,
      by rw [hst]; exact hseg, by rw [hst]; exact hnext,
      hinv.lists.rewrite har hbs rfl hnot hag hsl hst, by rw [hst]; exact hnot, ?_, ?_, ?_⟩,
    hag, hlo, hbrk, hst⟩
  · simp only [free, payloadToHeader, if_neg (show s.heapStart + span pre + 8 ≠ 0 by omega),
      Nat.add_sub_cancel, hsz, hpa, hpm, hs₁, hfn, hns, hna, cond_true, minBlockSize_eq, hs₂]
  · -- the prologue
    rw [hst, ← har.prologue]
    exact loadWord_congr fun y _ h₂ => hag y (.inl (by omega))
  · -- every other free block was listed
    intro z c hz hc hzx
    rw [hst] at hz hzx
    exact hinv.listed z c (by rw [hbs]; exact blockAt_replace hz hzx rfl) hc
  · exact (hbs ▸ hinv.coalesced).left_of_append
  · exact (List.chain'_cons'.1 (hbs ▸ hinv.coalesced).right_of_append).2

/-- `free` of the payload of an allocated block: the block is freed and merged with its
free neighbours. -/
theorem free_spec (hinv : HeapInv s h) (hbs : h.blocks = pre ++ A :: post) (hA : A.alloc = true) :
    ∃ s' h', free s (s.heapStart + span pre + 8) = some s' ∧
      Coalesced s { h with blocks := pre ++ ⟨A.size, false⟩ :: post } pre ⟨A.size, false⟩ post s' h' := by
  obtain ⟨hcode, hpc, hag, hlo, hbrk, hst⟩ := free_pre hinv hbs hA rfl rfl
  obtain ⟨s', h', hco, hc⟩ := coalesceBlock_spec hpc
  rw [hst] at hco
  refine ⟨s', h', by rw [hcode, hco]; rfl, hc.of_agree rfl hpc.sizes.2.2.1 rfl ?_ hlo hbrk hst⟩
  simpa using hag

end Free

section Extend

variable {s s₂ s₃ : State} {h : Heap} {size : Nat}

/-- `extend_heap` turns the old epilogue into the header of a free block over the new
bytes and writes a new epilogue after it: the state `coalesce_block` expects. -/
theorem extend_pre (hinv : HeapInv s h) (h16 : size % 16 = 0) (hmin : 16 ≤ size)
    (hfit : s.brk + size ≤ 2 ^ 64)
    (hs₂ : writeBlock { s with brk := s.brk + size } (s.heapStart + span h.blocks) size false
      (endFlags (true, false) h.blocks).1 (endFlags (true, false) h.blocks).2 = s₂)
    (hs₃ : writeEpilogue s₂ (s.heapStart + span h.blocks + size) false (size == 16) = s₃) :
    PreCoalesce s₃ { h with blocks := h.blocks ++ [⟨size, false⟩] } h.blocks ⟨size, false⟩ [] ∧
      Agree (fun y => y < s.heapStart + span h.blocks ∨ s.heapStart + span h.blocks + size + 8 ≤ y)
        s.mem s₃.mem ∧ s₃.lo = s.lo ∧ s₃.brk = s.brk + size ∧ s₃.heapStart = s.heapStart ∧
      findNext s₂ (s.heapStart + span h.blocks) = s.heapStart + span h.blocks + size := by
  have har := hinv.arena
  have hst := har.start
  have hbrk := har.brk
  have hB := writeBlock_blkOk { s with brk := s.brk + size } (s.heapStart + span h.blocks) size
    false (endFlags (true, false) h.blocks).1 (endFlags (true, false) h.blocks).2 h16 (by omega) hmin
  have hag₂ := writeBlock_agree { s with brk := s.brk + size } (s.heapStart + span h.blocks) size
    false (endFlags (true, false) h.blocks).1 (endFlags (true, false) h.blocks).2 h16 (by omega) hmin
  have hf₂ : s₂.lo = s.lo ∧ s₂.brk = s.brk + size ∧ s₂.heapStart = s.heapStart ∧
      s₂.segList = s.segList := by subst hs₂; simp
  rw [hs₂] at hB hag₂
  have hnext : findNext s₂ (s.heapStart + span h.blocks) = s.heapStart + span h.blocks + size := by
    rw [findNext, getSize_of_hdr hB.1 h16 (show size < 2 ^ 64 by omega)]
  subst hs₃
  simp only [writeEpilogue]
  have hag : Agree (fun y => y < s.heapStart + span h.blocks ∨
      s.heapStart + span h.blocks + size + 8 ≤ y) s.mem (storeWord s₂.mem
        (s.heapStart + span h.blocks + size) (pack 0 true false (size == 16))) :=
    (hag₂.mono fun y hy => by omega).trans (agree_storeWord _ _ fun y hy => by omega)
  have hnot : ∀ i, s.heapStart + span h.blocks ∉ h.bins i := fun i hx => by
    obtain ⟨c, hc, -⟩ := hinv.lists.members i _ hx
    have := blockAt_bound hc; have := (har.sizes c (blockAt_mem hc)).2; omega
  have hseg := hinv.walk
  rw [← List.append_nil h.blocks, tail_append] at hseg
  refine ⟨⟨rfl, rfl, ⟨by simp [hf₂.1, hf₂.2.2.1, hst], by simp [hf₂.2.2.1, hf₂.2.1]; omega,
      by simpa [hf₂.2.1] using hfit, sizesOk_append.2 ⟨har.sizes, sizesOk_cons.2
        ⟨⟨h16, hmin⟩, fun _ h => nomatch h⟩⟩, ?_⟩, ?_, ?_, ?_, ?_, ?_, ?_, List.chain'_nil⟩,
    hag, hf₂.1, hf₂.2.1, hf₂.2.2.1, hnext⟩
  · -- the prologue
    simp only [State.setWord_mem, State.setWord_heapStart, hf₂.2.2.1]
    rw [← har.prologue]
    exact loadWord_congr fun y _ h₂ => hag y (.inl (by omega))
  · -- the old blocks and the new one
    simp only [State.setWord_mem, State.setWord_heapStart, hf₂.2.2.1]
    refine seg_append.2 ⟨seg_frame_outside har.sizes (fun y _ h₂ => hag y (.inl h₂)) hseg.1,
      ⟨blkOk_frame (fun y hy => loadWord_congr fun z h₁ h₂ => storeWord_apply_of_lt _ ?_) hB,
        trivial⟩⟩
    simp only [HdrFtr, or_false] at hy
    rcases hy with rfl | ⟨-, -, rfl⟩ <;> omega
  · -- the new epilogue
    simp only [State.setWord_mem, State.setWord_heapStart, hf₂.2.2.1]
    exact loadWord_storeWord_same _ _ _
  · -- the lists lie below the old epilogue
    refine (hinv.lists.frame (by simp [hf₂.2.2.2]) (by simp [hf₂.2.2.1])
      fun i z hz y h₁ h₂ => ?_).reblock fun i z hz c hc => ?_
    · obtain ⟨c, hc, -, hlk⟩ := hinv.lists.link_in_block har hz
      have := blockAt_bound hc
      exact hag y (.inl (by omega))
    · simp only [State.setWord_heapStart, hf₂.2.2.1] at hc ⊢
      exact blockAt_append.2 (.inl hc)
  · simpa [hf₂.2.2.1] using hnot
  · -- every old free block was listed
    intro z c hz hc hzx
    simp only [State.setWord_heapStart, hf₂.2.2.1] at hz hzx
    rcases blockAt_append.1 hz with hz | hz
    · exact hinv.listed z c hz hc
    · exact absurd (blockAt_cons.1 hz) (by simp [hzx])
  · exact hinv.coalesced

/-- `extend_heap` by a multiple of 16: either the arena refuses and nothing changes, or the
new bytes become a free block, merged with a free last block. -/
theorem extendHeap_spec (ok : Nat → Bool) (hinv : HeapInv s h) (h16 : size % 16 = 0)
    (hmin : 16 ≤ size) (hlt : size + 15 < 2 ^ 64) :
    (¬ (ok size = true ∧ s.brk + size ≤ 2 ^ 64) ∧ extendHeap ok s size = some (s, 0)) ∨
    (ok size = true ∧ s.brk + size ≤ 2 ^ 64 ∧ ∃ s' h',
      extendHeap ok s size = some (s', s.heapStart + span (absorbPrev h.blocks).1) ∧
      Coalesced { s with brk := s.brk + size } { h with blocks := h.blocks ++ [⟨size, false⟩] }
        h.blocks ⟨size, false⟩ [] s' h') := by
  have hround : roundUp size dsize = size := by rw [roundUp_eq hlt]; omega
  by_cases hok : ok size = true ∧ s.brk + size ≤ 2 ^ 64
  · refine .inr ⟨hok.1, hok.2, ?_⟩
    obtain ⟨hpc, hag, hlo, hbrk, hst, hnext⟩ := extend_pre hinv h16 hmin hok.2 rfl rfl
    obtain ⟨s', h', hco, hc⟩ := coalesceBlock_spec hpc
    rw [hst] at hco
    refine ⟨s', h', ?_, hc.of_agree rfl (fun _ h => nomatch h) rfl hag hlo hbrk hst⟩
    have hepi := hinv.walk
    rw [← List.append_nil h.blocks, tail_append] at hepi
    have hx : s.brk - 8 = s.heapStart + span h.blocks := by have := hinv.arena.brk; omega
    simp only [extendHeap, hround, memSbrk, if_pos hok, payloadToHeader, hx]
    rw [getPrevAlloc_of_hdr (s := { s with brk := s.brk + size }) hepi.2 (by norm_num)
      (by norm_num), getPrevMini_of_hdr (s := { s with brk := s.brk + size }) hepi.2 (by norm_num)
      (by norm_num), hnext, cond_true, minBlockSize_eq]
    exact hco
  · exact .inl ⟨hok, by simp only [extendHeap, hround, memSbrk, if_neg hok]⟩

end Extend

end SegMalloc.FreeSpec
