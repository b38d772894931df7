import SegMalloc.Merge

/-! `coalesce_block` on the abstract heap. The free block `b` between `pre` and `post`
absorbs the last block of `pre` and the first of `post` when they are free
(`coalesceBlocks`); the absorbed neighbours leave their lists, the merged block is pushed
on the list of its size and, when something was merged, the header after it loses both
flags. -/
namespace SegMalloc.CoalesceSpec
open Memory Header Block FreeList Coalesce Layout Invariant Merge

open State

/-- The blocks before the merged block, and the bytes the predecessor brings: the last
block of `pre` when it is free. -/
def absorbPrev (pre : List Blk) : List Blk × Nat :=
  match pre.getLast? with
  | some p => if p.alloc then (pre, 0) else (pre.dropLast, p.size)
  | none => (pre, 0)

/-- The bytes the successor brings, and the blocks after the merged block. -/
def absorbNext : List Blk → Nat × List Blk
  | n :: post => if n.alloc then (0, n :: post) else (n.size, post)
  | [] => (0, [])

/-- The size of the merged block. -/
def mergedSize (pre : List Blk) (b : Blk) (post : List Blk) : Nat :=
  (absorbPrev pre).2 + b.size + (absorbNext post).1

/-- The implicit list after coalescing the free block `b`. -/
def coalesceBlocks (pre : List Blk) (b : Blk) (post : List Blk) : List Blk :=
  (absorbPrev pre).1 ++ ⟨mergedSize pre b post, false⟩ :: (absorbNext post).2

theorem absorbPrev_of_alloc {pre : List Blk} (h : ∀ c ∈ pre.getLast?, c.alloc = true) :
    absorbPrev pre = (pre, 0) := by
  unfold absorbPrev
  cases hl : pre.getLast? with
  | none => rfl
  | some c => simp [h c hl]

theorem absorbPrev_of_free {L : List Blk} {P : Blk} (h : P.alloc = false) :
    absorbPrev (L ++ [P]) = (L, P.size) := by
  simp [absorbPrev, h]

theorem absorbNext_of_alloc {post : List Blk} (h : ∀ c ∈ post.head?, c.alloc = true) :
    absorbNext post = (0, post) := by
  cases post with
  | nil => rfl
  | cons c post => simp [absorbNext, h c rfl]

theorem absorbNext_of_free {N : Blk} {R : List Blk} (h : N.alloc = false) :
    absorbNext (N :: R) = (N.size, R) := by
  simp [absorbNext, h]

/-! The two flags `coalesce_block` branches on: the `prev_alloc` bit of the block and the
allocation bit of the header after it. -/

theorem endFlags_alloc {pre : List Blk} (h : ∀ c ∈ pre.getLast?, c.alloc = true) :
    (endFlags (true, false) pre).1 = true := by
  rcases List.eq_nil_or_concat' pre with rfl | ⟨L, P, rfl⟩
  · rfl
  · simpa [Blk.flags] using h

theorem alloc_of_endFlags {pre : List Blk} (h : (endFlags (true, false) pre).1 = true) :
    ∀ c ∈ pre.getLast?, c.alloc = true := by
  rcases List.eq_nil_or_concat' pre with rfl | ⟨L, P, rfl⟩
  · simp
  · simpa [Blk.flags] using h

theorem free_of_endFlags {pre : List Blk} (h : (endFlags (true, false) pre).1 = false) :
    ∃ L P, pre = L ++ [P] ∧ P.alloc = false := by
  rcases List.eq_nil_or_concat' pre with rfl | ⟨L, P, rfl⟩
  · simp at h
  · exact ⟨L, P, rfl, by simpa [Blk.flags] using h⟩

theorem alloc_of_hdrOf {post : List Blk} (h : (hdrOf post).2 = true) :
    ∀ c ∈ post.head?, c.alloc = true := by
  cases post <;> simp_all [hdrOf]

theorem hdrOf_alloc {post : List Blk} (h : ∀ c ∈ post.head?, c.alloc = true) :
    (hdrOf post).2 = true := by
  cases post with
  | nil => rfl
  | cons c post => exact h c rfl

theorem free_of_hdrOf {post : List Blk} (h : (hdrOf post).2 = false) :
    ∃ N R, post = N :: R ∧ N.alloc = false := by
  cases post with
  | nil => simp [hdrOf] at h
  | cons N R => exact ⟨N, R, rfl, h⟩

/-- The walk after the absorbed successors `V` (none or one block). -/
theorem tail_of_hdTail_append {m : Mem} {a : Nat} {f : Bool × Bool} {V R : List Blk}
    (hV : V.length ≤ 1) (h : HdTail m a f (V ++ R)) (hR : ∀ c ∈ R.head?, c.alloc = true) :
    Tail m (a + span V) (endFlags f V) R :=
  match V, hV with
  | [], _ => tail_of_hdTail h hR
  | [_], _ => h.2
  | _ :: _ :: _, hV => absurd hV (by simp)

/-- What `free` and `extend_heap` hand to `coalesce_block`: the free block `b` after `pre`
is on no list and the header after it already carries its flags; the rest is as in the
invariant. The footer of the block after `b` is not read: `free` leaves it stale. -/
structure PreCoalesce (s : State) (h : Heap) (pre : List Blk) (b : Blk) (post : List Blk) :
    Prop where
  blocks : h.blocks = pre ++ b :: post
  free : b.alloc = false
  arena : Arena s h.blocks
  seg : Seg s.mem s.heapStart (true, false) (pre ++ [b])
  next : HdTail s.mem (s.heapStart + span pre + b.size) b.flags post
  lists : Lists s h
  unlisted : ∀ i, s.heapStart + span pre ∉ h.bins i
  listed : ∀ z c, BlockAt s.heapStart h.blocks z c → c.alloc = false →
    z ≠ s.heapStart + span pre → z ∈ h.bins (getListIndex c.size)
  chainPre : pre.Chain' NotBothFree
  chainPost : post.Chain' NotBothFree

/-- What `coalesce_block` leaves: the invariant over the merged list, the merged block at
the head of its list, and every byte outside the old free blocks and the header after the
merged block as it was. -/
structure Coalesced (s : State) (h : Heap) (pre : List Blk) (b : Blk) (post : List Blk)
    (s' : State) (h' : Heap) : Prop where
  inv : HeapInv s' h'
  blocks : h'.blocks = coalesceBlocks pre b post
  lo : s'.lo = s.lo
  brk : s'.brk = s.brk
  heapStart : s'.heapStart = s.heapStart
  head : s'.segList (getListIndex (mergedSize pre b post)) = s.heapStart + span (absorbPrev pre).1
  frame : Agree (fun y => OutFree s.heapStart h.blocks y ∧
    (y < s.heapStart + span pre + b.size + (absorbNext post).1 ∨
      s.heapStart + span pre + b.size + (absorbNext post).1 + 8 ≤ y)) s.mem s'.mem

section Coalesce

variable {s s₂ : State} {h h₂ : Heap} {pre post L R U V : List Blk} {b P N : Blk}

theorem PreCoalesce.sizes (hpc : PreCoalesce s h pre b post) :
    SizesOk pre ∧ (b.size % 16 = 0 ∧ 16 ≤ b.size) ∧ SizesOk post ∧
      s.heapStart + span pre + b.size + span post + 8 ≤ 2 ^ 64 := by
  have hok := hpc.arena.sizes
  have hfit := hpc.arena.fit
  rw [hpc.blocks] at hok hfit
  rw [sizesOk_append, sizesOk_cons] at hok
  simp only [span_append, span_cons] at hfit
  exact ⟨hok.1, hok.2.1, hok.2.2, by omega⟩

/-- The header words `coalesce_block` reads at the block and after it. -/
theorem PreCoalesce.reads (hpc : PreCoalesce s h pre b post) :
    getSize s (s.heapStart + span pre) = b.size ∧
      getPrevAlloc s (s.heapStart + span pre) = (endFlags (true, false) pre).1 ∧
      getPrevMini s (s.heapStart + span pre) = (endFlags (true, false) pre).2 ∧
      getSize s (s.heapStart + span pre + b.size) = (hdrOf post).1 ∧
      getAlloc s (s.heapStart + span pre + b.size) = (hdrOf post).2 := by
  obtain ⟨-, ⟨hb16, -⟩, hokp, hfit⟩ := hpc.sizes
  have hw := (seg_append.1 hpc.seg).2.1.1
  have hn := hdrOf_size hokp (by omega)
  have hwn := hdTail_hdr hpc.next
  exact ⟨getSize_of_hdr hw hb16 (by omega), getPrevAlloc_of_hdr hw hb16 (by omega),
    getPrevMini_of_hdr hw hb16 (by omega), getSize_of_hdr hwn hn.1 hn.2,
    getAlloc_of_hdr hwn hn.1 hn.2⟩

/-- The header words of a free predecessor `P`, and `find_prev` reaching it through
`prev_mini` or through its footer. -/
theorem PreCoalesce.prev (hpc : PreCoalesce s h (L ++ [P]) b post) (hP : P.alloc = false) :
    findPrev s (s.heapStart + span (L ++ [P])) = s.heapStart + span L ∧
      getSize s (s.heapStart + span L) = P.size ∧
      getPrevAlloc s (s.heapStart + span L) = (endFlags (true, false) L).1 ∧
      getPrevMini s (s.heapStart + span L) = (endFlags (true, false) L).2 := by
  obtain ⟨hokp, -, -, hfit⟩ := hpc.sizes
  obtain ⟨hP16, hPmin⟩ := (sizesOk_append.1 hokp).2 P (List.mem_singleton_self P)
  have hseg : Seg s.mem s.heapStart (true, false) (L ++ [P] ++ [b]) := hpc.seg
  have hPok := (seg_append.1 (seg_append.1 hseg).1).2.1
  simp only [span_append, span_cons, span_nil] at hfit
  have hPlt : P.size < 2 ^ 64 := by omega
  have hpm := hpc.reads.2.2.1
  rw [endFlags_append_singleton] at hpm
  refine ⟨?_, getSize_of_hdr hPok.1 hP16 hPlt, getPrevAlloc_of_hdr hPok.1 hP16 hPlt,
    getPrevMini_of_hdr hPok.1 hP16 hPlt⟩
  unfold findPrev
  rw [hpm]
  by_cases h16 : P.size = 16
  · simp [Blk.flags, h16, findHeader]; omega
  · have hft := hPok.2 hP (by omega)
    have he : s.heapStart + span (L ++ [P]) - 8 = s.heapStart + span L + P.size - 8 := by
      simp; omega
    simp only [Blk.flags, beq_false_of_ne h16, Bool.false_eq_true, if_false, findPrevFooter,
      wsize, he, hft, extractSize_pack hP16 hPlt, if_neg (show P.size ≠ 0 by omega),
      footerToHeader]
    omega

/-- The block `b` sits between the absorbed blocks `U` and `V`, one block at most each. -/
private theorem blockAt_merged {a z : Nat} {c : Blk} (hU : U.length ≤ 1) (hV : V.length ≤ 1)
    (hz : BlockAt a (U ++ b :: V) z c) :
    z = a ∨ z = a + span U ∨ (V ≠ [] ∧ z = a + span U + b.size) := by
  rcases U with _ | ⟨P, _ | _⟩ <;> rcases V with _ | ⟨N, _ | _⟩ <;>
    simp_all [blockAt_cons, Nat.add_assoc] <;> tauto

/-- Case 1: both neighbours are allocated, and the block is only pushed on its list. -/
theorem coalesce_alone (hpc : PreCoalesce s h pre b post)
    (hpa : ∀ c ∈ pre.getLast?, c.alloc = true) (hna : ∀ c ∈ post.head?, c.alloc = true) :
    coalesceBlock s (s.heapStart + span pre) =
        some (insertNormalOrMini s (s.heapStart + span pre), s.heapStart + span pre) ∧
      Coalesced s h pre b post (insertNormalOrMini s (s.heapStart + span pre))
        (h.push (getListIndex b.size) (s.heapStart + span pre)) := by
  have har := hpc.arena
  obtain ⟨hsz, hpa', -, -, hna'⟩ := hpc.reads
  have hx : BlockAt s.heapStart h.blocks (s.heapStart + span pre) b := by
    rw [hpc.blocks]; exact blockAt_here _ _ _ _
  obtain ⟨m', heq, hL', hwa, hfb⟩ :=
    insertNormalOrMini_spec har hpc.lists hx hpc.free hsz hpc.unlisted
  have hwalk : Tail s.mem s.heapStart (true, false) h.blocks := by
    rw [hpc.blocks, show pre ++ b :: post = pre ++ [b] ++ post by simp, tail_append,
      endFlags_append_singleton]
    exact ⟨hpc.seg, by simpa [Nat.add_assoc] using tail_of_hdTail hpc.next hna⟩
  have hsize : mergedSize pre b post = b.size := by
    simp [mergedSize, absorbPrev_of_alloc hpa, absorbNext_of_alloc hna]
  refine ⟨by simp only [coalesceBlock, findNext, hsz, hpa', hna', endFlags_alloc hpa,
    hdrOf_alloc hna, Bool.and_self, if_true], ?_⟩
  rw [heq]
  refine ⟨⟨⟨har.start, har.brk, har.brk_le, har.sizes, har.prologue_of_agree hfb⟩,
    tail_of_walkAgree hwa hwalk, hL', fun z c hz hc => ?_, ?_⟩, ?_, rfl, rfl, rfl, ?_,
    hfb.mono fun y hy => hy.1.not_freeBody⟩
  · -- every free block is listed
    by_cases hzx : z = s.heapStart + span pre
    · subst hzx
      obtain rfl := blockAt_unique har.sizes hx hz
      exact Heap.mem_push.2 (.inl ⟨rfl, rfl⟩)
    · exact Heap.mem_push.2 (.inr (hpc.listed z c hz hc hzx))
  · -- no two free neighbours
    rw [Heap.push_blocks, hpc.blocks]
    refine List.chain'_append.2 ⟨hpc.chainPre, List.chain'_cons'.2
      ⟨fun c hc => .inr (hna c hc), hpc.chainPost⟩, fun c hc d hd => ?_⟩
    obtain rfl : d = b := by simpa using hd.symm
    exact .inl (hpa c hc)
  · rw [Heap.push_blocks, hpc.blocks, coalesceBlocks, hsize, absorbPrev_of_alloc hpa,
      absorbNext_of_alloc hna, ← hpc.free]
  · rw [hsize, absorbPrev_of_alloc hpa]
    exact Function.update_same _ _ _

/-- Cases 2 to 4 once the absorbed neighbours `U` (before the block) and `V` (after it)
have left their lists: the merged block is written, pushed on its list, and the header
after it cleared. -/
theorem coalesceMerge_spec (hpc : PreCoalesce s h pre b post) (hpre : pre = L ++ U)
    (hpost : post = V ++ R) (hU : ∀ c ∈ U, c.alloc = false) (hV : ∀ c ∈ V, c.alloc = false)
    (hU1 : U.length ≤ 1) (hV1 : V.length ≤ 1) (hne : U ≠ [] ∨ V ≠ [])
    (hLa : ∀ c ∈ L.getLast?, c.alloc = true) (hRa : ∀ c ∈ R.head?, c.alloc = true)
    (hprev : absorbPrev pre = (L, span U)) (hnext : absorbNext post = (span V, R))
    (hbl : h₂.blocks = h.blocks) (har₂ : Arena s₂ h.blocks) (hL₂ : Lists s₂ h₂)
    (hmem : ∀ i z, z ∈ h₂.bins i ↔ z ∈ h.bins i ∧ z ≠ s.heapStart + span L ∧
      (V ≠ [] → z ≠ s.heapStart + span pre + b.size))
    (hwa : WalkAgree s.heapStart h.blocks s.mem s₂.mem)
    (hfb : Agree (fun y => ¬ FreeBody s.heapStart h.blocks y) s.mem s₂.mem)
    (hlo : s₂.lo = s.lo) (hbrk : s₂.brk = s.brk) (hst : s₂.heapStart = s.heapStart) :
    Coalesced s h pre b post
      (clearNextFlags (insertNormalOrMini (writeBlock s₂ (s.heapStart + span L)
        (mergedSize pre b post) false (endFlags (true, false) L).1 (endFlags (true, false) L).2)
        (s.heapStart + span L)) (s.heapStart + span L))
      (Heap.push { h₂ with blocks := L ++ ⟨mergedSize pre b post, false⟩ :: R }
        (getListIndex (mergedSize pre b post)) (s.heapStart + span L)) := by
  subst hpre hpost
  obtain ⟨hokp, ⟨hb16, hbmin⟩, hokq, hfit⟩ := hpc.sizes
  have hokU := (sizesOk_append.1 hokp).2
  have hokV := (sizesOk_append.1 hokq).1
  have hUV : (U ≠ [] → 16 ≤ span U) ∧ (V ≠ [] → 16 ≤ span V) := by
    have := length_le_span hokU; have := length_le_span hokV
    exact ⟨fun h => by have := List.length_pos.2 h; omega,
      fun h => by have := List.length_pos.2 h; omega⟩
  have hn : span (U ++ b :: V) = mergedSize (L ++ U) b (V ++ R) := by
    simp [mergedSize, hprev, hnext]; omega
  have h32 : 32 ≤ span (U ++ b :: V) := by
    simp only [span_append, span_cons]; rcases hne with h | h
    · have := hUV.1 h; omega
    · have := hUV.2 h; omega
  have hbs : h.blocks = L ++ (U ++ b :: V) ++ R := by rw [hpc.blocks]; simp
  rw [hbs] at hwa
  -- listed blocks other than the absorbed ones lie outside the merged block
  have hout : ∀ i, ∀ z ∈ h₂.bins i, ∀ c, BlockAt s₂.heapStart h₂.blocks z c →
      z + c.size ≤ s.heapStart + span L ∨ s.heapStart + span L + span (U ++ b :: V) ≤ z := by
    intro i z hz c hc
    obtain ⟨hzh, hzL, hzV⟩ := (hmem i z).1 hz
    rw [hst, hbl, hbs] at hc
    rcases blockAt_append.1 hc with hc | hc
    · rcases blockAt_append.1 hc with hc | hc
      · exact .inl (blockAt_bound hc).2
      · rcases blockAt_merged hU1 hV1 hc with e | e | ⟨hV0, e⟩
        · exact absurd e hzL
        · have e' : z = s.heapStart + span (L ++ U) := by simpa [Nat.add_assoc] using e
          exact absurd (e' ▸ hzh) (hpc.unlisted i)
        · exact absurd (by simpa [Nat.add_assoc] using e) (hzV hV0)
    · exact .inr (by have := (blockAt_bound hc).1; simp at this ⊢; omega)
  have hseg₂ : Seg s₂.mem s₂.heapStart (true, false) L := by
    have := (seg_append.1 (seg_append.1 (hpc.seg : Seg s.mem _ _ (L ++ U ++ [b]))).1).1
    exact hst ▸ seg_frame (fun y hy => hwa y (.inl (hdrFtr_append.2 (.inl
      (hdrFtr_append.2 (.inl hy)))))) this
  have htl₂ : Tail s₂.mem (s.heapStart + span L + span (U ++ b :: V)) (endFlags b.flags V) R := by
    have := tail_of_hdTail_append hV1 hpc.next hRa
    have e : s.heapStart + span (L ++ U) + b.size + span V =
        s.heapStart + span (L ++ (U ++ b :: V)) := by simp; omega
    rw [e] at this
    rw [show s.heapStart + span L + span (U ++ b :: V) = s.heapStart + span (L ++ (U ++ b :: V))
      by simp [Nat.add_assoc]]
    exact tail_frame (fun y hy => hwa y (tailWords_of_tail hy)) this
  have hchain : (L ++ ⟨mergedSize (L ++ U) b (V ++ R), false⟩ :: R).Chain' NotBothFree :=
    List.chain'_append.2 ⟨hpc.chainPre.left_of_append, List.chain'_cons'.2
      ⟨fun c hc => .inr (hRa c hc), hpc.chainPost.right_of_append⟩, fun c hc d hd => by
        obtain rfl := Option.mem_some_iff.1 hd
        exact .inl (hLa c hc)⟩
  -- a free block outside the merged one was listed and stays listed
  have hlisted : ∀ z c, BlockAt s₂.heapStart h₂.blocks z c → c.alloc = false →
      z + c.size ≤ s.heapStart + span L ∨ s.heapStart + span L + span (U ++ b :: V) ≤ z →
      z ∈ h₂.bins (getListIndex c.size) := by
    intro z c hz hc hside
    rw [hst, hbl] at hz
    have hc16 := (har₂.blk (hst ▸ hz)).2.1
    have hbU := hUV.2
    refine (hmem _ z).2 ⟨hpc.listed z c hz hc fun e => ?_, fun e => ?_, fun hV0 e => ?_⟩
    · simp only [span_append, span_cons] at e hside; omega
    · omega
    · have := hbU hV0; simp only [span_append, span_cons] at e hside; omega
  obtain ⟨hinv, hlo', hbrk', hst', hhd, hag⟩ := merge_spec (s := s₂) (h := h₂) (L := L)
    (M := U ++ b :: V) (p := s.heapStart + span L) (R := R) (hbl.trans hbs)
    (List.forall_mem_append.2 ⟨hU, List.forall_mem_cons.2 ⟨hpc.free, hV⟩⟩) h32 hn
    (by rw [hst]) (hbl ▸ har₂) hL₂ hout hseg₂ htl₂ hRa hlisted hchain rfl
  refine ⟨hinv, by simp [coalesceBlocks, hprev, hnext], hlo'.trans hlo, hbrk'.trans hbrk,
    hst'.trans hst, by rw [hhd, hprev], ?_⟩
  have e : s.heapStart + span (L ++ U) + b.size + (absorbNext (V ++ R)).1 =
      s.heapStart + span L + mergedSize (L ++ U) b (V ++ R) := by
    rw [← hn, hnext]; simp; omega
  rw [e]
  exact (hfb.mono fun y hy => hy.1.not_freeBody).trans
    (hag.mono fun y hy => ⟨by rw [hst, hbl]; exact hy.1, hy.2⟩)

theorem PreCoalesce.listed_next (hpc : PreCoalesce s h pre b (N :: R)) (hN : N.alloc = false) :
    BlockAt s.heapStart h.blocks (s.heapStart + span pre + b.size) N ∧
      s.heapStart + span pre + b.size ∈ h.bins (getListIndex N.size) ∧
      ∀ c ∈ R.head?, c.alloc = true := by
  have hN' : BlockAt s.heapStart h.blocks (s.heapStart + span pre + b.size) N := by
    rw [hpc.blocks]; simpa [Nat.add_assoc] using blockAt_here s.heapStart (pre ++ [b]) R N
  refine ⟨hN', hpc.listed _ N hN' hN (by have := hpc.sizes.2.1.2; omega), fun c hc => ?_⟩
  rcases (List.chain'_cons'.1 hpc.chainPost).1 c hc with h | h
  · simp [hN] at h
  · exact h

theorem PreCoalesce.listed_prev (hpc : PreCoalesce s h (L ++ [P]) b post) (hP : P.alloc = false) :
    BlockAt s.heapStart h.blocks (s.heapStart + span L) P ∧
      s.heapStart + span L ∈ h.bins (getListIndex P.size) ∧
      ∀ c ∈ L.getLast?, c.alloc = true := by
  have hP' : BlockAt s.heapStart h.blocks (s.heapStart + span L) P := by
    rw [hpc.blocks]; simpa using blockAt_here s.heapStart L (b :: post) P
  have hPmin := ((sizesOk_append.1 hpc.sizes.1).2 P (List.mem_singleton_self P)).2
  refine ⟨hP', hpc.listed _ P hP' hP (by simp; omega), fun c hc => ?_⟩
  rcases (List.chain'_append.1 hpc.chainPre).2.2 c hc P rfl with h | h
  · exact h
  · simp [hP] at h

/-- Case 2: only the predecessor `P` is free. -/
theorem coalesce_prev (hpc : PreCoalesce s h (L ++ [P]) b post) (hP : P.alloc = false)
    (hna : ∀ c ∈ post.head?, c.alloc = true) :
    ∃ s' h', coalesceBlock s (s.heapStart + span (L ++ [P])) = some (s', s.heapStart + span L) ∧
      Coalesced s h (L ++ [P]) b post s' h' := by
  obtain ⟨hsz, hpa, -, -, hna'⟩ := hpc.reads
  obtain ⟨hfp, hPsz, hPpa, hPpm⟩ := hpc.prev hP
  obtain ⟨hPat, hPl, hLa⟩ := hpc.listed_prev hP
  obtain ⟨s₁, hdel, har₁, hL₁, hwa₁, hfb₁, hlo₁, hbrk₁, hst₁⟩ :=
    deleteNormalOrMini_arena hpc.arena hpc.lists hPat hPsz hPl
  have hfit := hpc.sizes.2.2.2
  simp only [span_append, span_cons, span_nil] at hfit
  have hprev := absorbPrev_of_free (L := L) hP
  have hnext := absorbNext_of_alloc hna
  refine ⟨_, _, ?_, coalesceMerge_spec (U := [P]) (V := []) hpc rfl rfl (by simp [hP]) (by simp)
    (by simp) (by simp) (by simp) hLa hna (by simpa using hprev) hnext (Heap.erase_blocks _ _ _) har₁ hL₁
    (fun i z => (hpc.lists.mem_erase hpc.arena hPl).trans (by simp)) hwa₁ hfb₁ hlo₁ hbrk₁ hst₁⟩
  simp only [coalesceBlock, findNext, hsz, hpa, hna', endFlags_append_singleton, Blk.flags, hP,
    hdrOf_alloc hna, Bool.false_and, Bool.not_false, Bool.true_and, if_true, if_false,
    Bool.false_eq_true, hfp, hPsz, hPpa, hPpm, hdel, Option.map_some']
  rw [usize_of_lt (by omega)]
  simp [mergedSize, hprev, hnext]

/-- Case 3: only the successor `N` is free. -/
theorem coalesce_next (hpc : PreCoalesce s h pre b (N :: R))
    (hpa : ∀ c ∈ pre.getLast?, c.alloc = true) (hN : N.alloc = false) :
    ∃ s' h', coalesceBlock s (s.heapStart + span pre) = some (s', s.heapStart + span pre) ∧
      Coalesced s h pre b (N :: R) s' h' := by
  obtain ⟨hsz, hpa', hpm, hnsz, hna'⟩ := hpc.reads
  obtain ⟨hNat, hNl, hRa⟩ := hpc.listed_next hN
  obtain ⟨s₁, hdel, har₁, hL₁, hwa₁, hfb₁, hlo₁, hbrk₁, hst₁⟩ :=
    deleteNormalOrMini_arena hpc.arena hpc.lists hNat hnsz hNl
  have hfit := hpc.sizes.2.2.2
  simp only [span_cons] at hfit
  have hprev := absorbPrev_of_alloc hpa
  have hnext := absorbNext_of_free (R := R) hN
  refine ⟨_, _, ?_, coalesceMerge_spec (L := pre) (U := []) (V := [N]) hpc (by simp) rfl (by simp)
    (by simp [hN]) (by simp) (by simp) (by simp) hpa hRa hprev (by simpa using hnext) (Heap.erase_blocks _ _ _) har₁ hL₁
    (fun i z => (hpc.lists.mem_erase hpc.arena hNl).trans ⟨fun ⟨h₁, h₂⟩ =>
      ⟨h₁, fun e => hpc.unlisted i (by simpa [e] using h₁), fun _ => h₂⟩,
      fun ⟨h₁, _, h₃⟩ => ⟨h₁, h₃ (by simp)⟩⟩) hwa₁ hfb₁ hlo₁ hbrk₁ hst₁⟩
  simp only [coalesceBlock, findNext, hsz, hpa', hna', endFlags_alloc hpa, hdrOf, hN,
    Bool.and_false, Bool.not_false, Bool.not_true, Bool.true_and, Bool.false_and, if_true,
    if_false, Bool.false_eq_true, hnsz, hpm, hdel, Option.map_some']
  rw [usize_of_lt (by omega)]
  simp [mergedSize, hprev, hnext]

/-- Case 4: both neighbours are free; the successor leaves its list first. -/
theorem coalesce_both (hpc : PreCoalesce s h (L ++ [P]) b (N :: R)) (hP : P.alloc = false)
    (hN : N.alloc = false) :
    ∃ s' h', coalesceBlock s (s.heapStart + span (L ++ [P])) = some (s', s.heapStart + span L) ∧
      Coalesced s h (L ++ [P]) b (N :: R) s' h' := by
  obtain ⟨hsz, hpa, -, hnsz, hna'⟩ := hpc.reads
  obtain ⟨hfp, hPsz, hPpa, hPpm⟩ := hpc.prev hP
  obtain ⟨hPat, hPl, hLa⟩ := hpc.listed_prev hP
  obtain ⟨hNat, hNl, hRa⟩ := hpc.listed_next hN
  have hfit := hpc.sizes.2.2.2
  simp only [span_append, span_cons, span_nil] at hfit
  have hPmin := ((sizesOk_append.1 hpc.sizes.1).2 P (List.mem_singleton_self P)).2
  have hbmin := hpc.sizes.2.1.2
  have hne : s.heapStart + span L ≠ s.heapStart + span (L ++ [P]) + b.size := by simp; omega
  obtain ⟨s₁, hdel₁, har₁, hL₁, hwa₁, hfb₁, hlo₁, hbrk₁, hst₁⟩ :=
    deleteNormalOrMini_arena hpc.arena hpc.lists hNat hnsz hNl
  -- the predecessor's header is a word of the walk, which the first deletion kept
  have hPsz₁ : getSize s₁ (s.heapStart + span L) = P.size := by
    rw [← hPsz]; exact congrArg extractSize (hwa₁ _ (tailWords_of_blockAt hPat))
  obtain ⟨s₂, hdel₂, har₂, hL₂, hwa₂, hfb₂, hlo₂, hbrk₂, hst₂⟩ :=
    deleteNormalOrMini_arena har₁ hL₁ (hst₁ ▸ hPat) hPsz₁
      ((hpc.lists.mem_erase hpc.arena hNl).2 ⟨hPl, hne⟩)
  rw [hst₁] at hwa₂ hfb₂
  have hprev := absorbPrev_of_free (L := L) hP
  have hnext := absorbNext_of_free (R := R) hN
  refine ⟨_, _, ?_, coalesceMerge_spec (U := [P]) (V := [N]) hpc rfl rfl (by simp [hP])
    (by simp [hN]) (by simp) (by simp) (by simp) hLa hRa (by simpa using hprev)
    (by simpa using hnext) ((Heap.erase_blocks _ _ _).trans (Heap.erase_blocks _ _ _)) har₂ hL₂
    (fun i z => ?_) (fun y hy => (hwa₂ y hy).trans (hwa₁ y hy))
    (hfb₁.trans hfb₂) (hlo₂.trans hlo₁) (hbrk₂.trans hbrk₁) (hst₂.trans hst₁)⟩
  · simp only [coalesceBlock, findNext, hsz, hpa, hna', endFlags_append_singleton, Blk.flags, hP,
      hdrOf, hN, Bool.and_false, Bool.not_false, Bool.true_and, Bool.false_and, if_true,
      if_false, Bool.false_eq_true, hnsz, hfp, hPsz, hPpa, hPpm, hdel₁, Option.some_bind, hdel₂,
      Option.map_some']
    rw [usize_of_lt (by omega)]
    simp [mergedSize, hprev, hnext]
  · rw [hL₁.mem_erase har₁ ((hpc.lists.mem_erase hpc.arena hNl).2 ⟨hPl, hne⟩),
      hpc.lists.mem_erase hpc.arena hNl]
    simp only [ne_eq, List.cons_ne_nil, not_false_eq_true, forall_const]
    tauto

/-- `coalesce_block` merges the free block with its free neighbours and restores the
invariant; the mini-list walks of its deletions end within their fuel. -/
theorem coalesceBlock_spec (hpc : PreCoalesce s h pre b post) :
    ∃ s' h', coalesceBlock s (s.heapStart + span pre) =
        some (s', s.heapStart + span (absorbPrev pre).1) ∧ Coalesced s h pre b post s' h' := by
  cases hpa : (endFlags (true, false) pre).1 <;> cases hna : (hdrOf post).2
  · obtain ⟨L, P, rfl, hP⟩ := free_of_endFlags hpa
    obtain ⟨N, R, rfl, hN⟩ := free_of_hdrOf hna
    rw [absorbPrev_of_free hP]; exact coalesce_both hpc hP hN
  · obtain ⟨L, P, rfl, hP⟩ := free_of_endFlags hpa
    rw [absorbPrev_of_free hP]; exact coalesce_prev hpc hP (alloc_of_hdrOf hna)
  · obtain ⟨N, R, rfl, hN⟩ := free_of_hdrOf hna
    rw [absorbPrev_of_alloc (alloc_of_endFlags hpa)]
    exact coalesce_next hpc (alloc_of_endFlags hpa) hN
  · rw [absorbPrev_of_alloc (alloc_of_endFlags hpa)]
    exact ⟨_, _, coalesce_alone hpc (alloc_of_endFlags hpa) (alloc_of_hdrOf hna)⟩

end Coalesce

/-- The frame of `Coalesced` survives the caller's writes to the block `b` and to the
header after it. -/
theorem Coalesced.of_agree {s s₂ s' : State} {h h' : Heap} {pre post : List Blk} {b : Blk}
    (hc : Coalesced s₂ h pre b post s' h') (hb : b.alloc = false) (hok : SizesOk post)
    (hbs : h.blocks = pre ++ b :: post)
    (hag : Agree (fun y => y < s.heapStart + span pre ∨ s.heapStart + span pre + b.size + 8 ≤ y)
      s.mem s₂.mem)
    (hlo : s₂.lo = s.lo) (hbrk : s₂.brk = s.brk) (hst : s₂.heapStart = s.heapStart) :
    Coalesced s h pre b post s' h' := by
  refine ⟨hc.inv, hc.blocks, hc.lo.trans hlo, hc.brk.trans hbrk, hc.heapStart.trans hst,
    by rw [hc.head, hst], ?_⟩
  have hfr := hc.frame
  rw [hst] at hfr
  refine (hag.mono fun y hy => ?_).trans hfr
  -- `y` is outside `b`, and outside the header after it unless that header is absorbed
  obtain ⟨hout, hr⟩ := hy
  have hbx := hout _ b (by rw [hbs]; exact blockAt_here _ _ _ _) hb
  cases post with
  | nil => simp only [absorbNext, add_zero] at hr; omega
  | cons N R =>
    cases hN : N.alloc
    · have hNx := hout _ N (by
        rw [hbs]; simpa [Nat.add_assoc] using blockAt_here s.heapStart (pre ++ [b]) R N) hN
      have := (sizesOk_cons.1 hok).1.2
      simp only [absorbNext, hN, if_false, Bool.false_eq_true] at hr
      omega
    · simp only [absorbNext, hN, if_true, add_zero] at hr; omega

end SegMalloc.CoalesceSpec
