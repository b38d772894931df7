import SegMalloc.Invariant
import SegMalloc.Coalesce

/-! The steps of `coalesce_block` on the abstract heap. `insertClear_spec` pushes a free
block on its list and clears the flags of the header after it; `merge_spec`, the common
end of cases 2 to 4, first writes the merged block over the free blocks it replaces. -/
namespace SegMalloc.Merge
open Memory Header Block FreeList Coalesce Layout Invariant

open State

/-- The last step of `coalesce_block` rewrites the header after the block at `b` with
both flags clear. -/
theorem clearNextFlags_eq {s : State} {b sz : Nat} {R : List Blk} {f : Bool × Bool}
    (hsz : getSize s b = sz) (htl : HdTail s.mem (b + sz) f R) (hok : SizesOk R)
    (hfit : b + sz + span R < 2 ^ 64) :
    clearNextFlags s b = s.setWord (b + sz) (pack (hdrOf R).1 (hdrOf R).2 false false) := by
  have hw := hdTail_hdr htl
  have h16 := hdrOf_size hok (by omega)
  simp only [clearNextFlags, findNext, hsz, updateBlock, getSize_of_hdr hw h16.1 h16.2,
    getAlloc_of_hdr hw h16.1 h16.2]

/-- The walk split after `l₁` survives an edit that keeps the words of the whole walk. -/
theorem pieces_frame {m m' : Mem} {a : Nat} {l₁ l₂ : List Blk} {f f' : Bool × Bool}
    (hag : WalkAgree a (l₁ ++ l₂) m m') (h₁ : Seg m a f l₁) (h₂ : Tail m (a + span l₁) f' l₂) :
    Seg m' a f l₁ ∧ Tail m' (a + span l₁) f' l₂ :=
  ⟨seg_frame (fun y hy => hag y (.inl (hdrFtr_append.2 (.inl hy)))) h₁,
    tail_frame (fun y hy => hag y (tailWords_of_tail hy)) h₂⟩

section Place

variable {s s' : State} {h : Heap} {L R : List Blk} {f' : Bool × Bool} {n p : Nat}

/-- Pushing the unlisted free block at `p` on its list and clearing the flags of the
header after it restores the invariant, when that header is the only word of the walk
that is off. -/
theorem insertClear_spec (hbs : h.blocks = L ++ ⟨n, false⟩ :: R) (h32 : 32 ≤ n)
    (hp : s.heapStart + span L = p) (har : Arena s h.blocks) (hL : Lists s h)
    (hnot : ∀ i, p ∉ h.bins i) (hseg : Seg s.mem s.heapStart (true, false) (L ++ [⟨n, false⟩]))
    (htl : Tail s.mem (p + n) f' R) (hR : ∀ c ∈ R.head?, c.alloc = true)
    (hlisted : ∀ z c, BlockAt s.heapStart h.blocks z c → c.alloc = false → z ≠ p →
      z ∈ h.bins (getListIndex c.size))
    (hchain : h.blocks.Chain' NotBothFree)
    (hs' : clearNextFlags (insertNormalOrMini s p) p = s') :
    HeapInv s' (h.push (getListIndex n) p) ∧ s'.lo = s.lo ∧ s'.brk = s.brk ∧
      s'.heapStart = s.heapStart ∧ s'.segList (getListIndex n) = p ∧
      Agree (fun y => ¬ FreeBody s.heapStart h.blocks y ∧ (y < p + n ∨ p + n + 8 ≤ y))
        s.mem s'.mem := by
  have hok := har.sizes
  rw [hbs, sizesOk_append, sizesOk_cons] at hok
  obtain ⟨hokL, ⟨hn16, -⟩, hokR⟩ := hok
  change n % 16 = 0 at hn16
  have hfit := har.fit
  rw [hbs] at hfit
  simp only [span_append, span_cons] at hfit
  have hnlt : n < 2 ^ 64 := by omega
  have hsplit : L ++ [(⟨n, false⟩ : Blk)] ++ R = L ++ ⟨n, false⟩ :: R := by simp
  have he : s.heapStart + span (L ++ [(⟨n, false⟩ : Blk)]) = p + n := by simp; omega
  have hF := (seg_append.1 hseg).2.1
  rw [hp] at hF
  have hpF : BlockAt s.heapStart h.blocks p ⟨n, false⟩ := by
    rw [hbs, ← hp]; exact blockAt_here _ L R _
  obtain ⟨m', heq, hL', hwa, hfb⟩ :=
    insertNormalOrMini_spec har hL hpF rfl (getSize_of_hdr hF.1 hn16 hnlt) hnot
  rw [heq] at hs'
  rw [hbs, ← hsplit] at hwa
  obtain ⟨hseg', htl'⟩ := pieces_frame hwa hseg (he ▸ htl)
  rw [he] at htl'
  have hF' := (seg_append.1 hseg').2.1
  rw [hp] at hF'
  have hsz : getSize { s with mem := m', segList := Function.update s.segList (getListIndex n) p }
      p = n := getSize_of_hdr hF'.1 hn16 hnlt
  rw [clearNextFlags_eq hsz (hdTail_of_tail htl') hokR (by omega)] at hs'
  subst hs'
  have hpro := har.prologue_of_agree hfb
  have har' : Arena { s with mem := m', segList := Function.update s.segList (getListIndex n) p }
      (h.push (getListIndex n) p).blocks := ⟨har.start, har.brk, har.brk_le, har.sizes, hpro⟩
  have hflags : (⟨n, false⟩ : Blk).flags = (false, false) := by
    simp only [Blk.flags, Prod.mk.injEq, true_and]
    exact beq_false_of_ne (by omega)
  refine ⟨⟨⟨har.start, har.brk, har.brk_le, har.sizes, ?_⟩, ?_, ?_, ?_, hchain⟩, rfl, rfl, rfl,
    by simp, (hfb.mono fun y hy => hy.1).trans (agree_storeWord _ _ fun y hy => hy.2)⟩
  · -- the prologue
    show loadWord (storeWord m' (p + n) _) (s.heapStart - 8) = _
    rw [loadWord_storeWord_of_disjoint _ _ (by have := har.start; omega)]
    exact hpro
  · -- the walk
    show Tail (storeWord m' (p + n) _) s.heapStart (true, false) h.blocks
    rw [hbs, ← hsplit, tail_append]
    have hokLF := sizesOk_append.1 (show SizesOk (L ++ [⟨n, false⟩] ++ R) by
      rw [hsplit, ← hbs]; exact har.sizes)
    refine ⟨seg_frame_outside hokLF.1
      (fun y _ h₂ => storeWord_apply_of_lt _ (by rw [he] at h₂; omega)) hseg', ?_⟩
    rw [endFlags_append_singleton, hflags, he]
    exact tail_of_hdTail (hdTail_update (f := (false, false)) hokR (hdTail_of_tail htl')) hR
  · -- the lists: no member's links lie in the rewritten header
    refine hL'.frame rfl rfl fun i z hz y h₁ h₂ => storeWord_apply_of_lt _ ?_
    obtain ⟨c, hc, -, hlk⟩ := hL'.link_in_block har' hz
    have hb := blockAt_boundary (show BlockAt s.heapStart (L ++ [⟨n, false⟩] ++ R) z c by
      rw [hsplit, ← hbs]; exact hc)
    rw [he] at hb
    omega
  · -- every free block is listed
    intro z c hz hc
    by_cases hzp : z = p
    · subst hzp
      obtain rfl := blockAt_unique har.sizes hpF hz
      exact Heap.mem_push.2 (.inl ⟨rfl, rfl⟩)
    · exact Heap.mem_push.2 (.inr (hlisted z c hz hc hzp))

end Place

section Merge

variable {s s₂ s' : State} {h : Heap} {L M R : List Blk} {f' : Bool × Bool} {n p : Nat}

/-- Writing the merged block over the free blocks `M` keeps the arena and the lists, with
`M` replaced by one free block that no list holds. -/
theorem writeMerged_spec (hbs : h.blocks = L ++ M ++ R) (h16 : 16 ≤ span M) (hp : s.heapStart + span L = p) (har : Arena s h.blocks)
    (hL : Lists s h)
    (hout : ∀ i, ∀ z ∈ h.bins i, ∀ c, BlockAt s.heapStart h.blocks z c →
      z + c.size ≤ p ∨ p + span M ≤ z)
    (hseg : Seg s.mem s.heapStart (true, false) L) (htl : Tail s.mem (p + span M) f' R)
    (hs₂ : writeBlock s p (span M) false (endFlags (true, false) L).1
      (endFlags (true, false) L).2 = s₂) :
    Arena s₂ (L ++ ⟨span M, false⟩ :: R) ∧ Lists s₂ { h with blocks := L ++ ⟨span M, false⟩ :: R } ∧
      Seg s₂.mem s.heapStart (true, false) (L ++ [⟨span M, false⟩]) ∧
      Tail s₂.mem (p + span M) f' R ∧ s₂.lo = s.lo ∧ s₂.brk = s.brk ∧
      s₂.heapStart = s.heapStart ∧ s₂.segList = s.segList ∧
      Agree (fun y => y < p ∨ p + span M ≤ y) s.mem s₂.mem := by
  have hok := har.sizes
  rw [hbs, sizesOk_append, sizesOk_append] at hok
  obtain ⟨⟨hokL, hokM⟩, hokR⟩ := hok
  have hfit := har.fit
  rw [hbs] at hfit
  simp only [span_append] at hfit
  have hM16 : span M % 16 = 0 := span_mod hokM
  have hMlt : span M < 2 ^ 64 := by omega
  have hF := writeBlock_blkOk s p (span M) false (endFlags (true, false) L).1
    (endFlags (true, false) L).2 hM16 hMlt h16
  have hag := writeBlock_agree s p (span M) false (endFlags (true, false) L).1
    (endFlags (true, false) L).2 hM16 hMlt h16
  subst hs₂
  have hst := har.start
  have hpro := har.prologue
  refine ⟨⟨by simpa using hst, ?_, by simpa using har.brk_le, sizesOk_append.2 ⟨hokL,
      sizesOk_cons.2 ⟨⟨hM16, h16⟩, hokR⟩⟩, ?_⟩, ?_, seg_append.2 ⟨seg_frame_outside hokL
      (fun y _ h₂ => hag y (.inl (by omega))) hseg, by rw [hp]; exact ⟨hF, trivial⟩⟩,
    tail_frame_outside hokR (fun y h₁ _ => hag y (.inr h₁)) htl, by simp, by simp, by simp,
    by simp, hag⟩
  · have := har.brk
    rw [hbs] at this
    simp only [span_append, span_cons, writeBlock_heapStart, writeBlock_brk] at this ⊢
    omega
  · rw [writeBlock_heapStart, ← hpro]
    exact loadWord_congr fun y _ h₂ => hag y (.inl (by omega))
  · refine (hL.frame (by simp) (by simp) fun i z hz y h₁ h₂ => ?_).reblock fun i z hz c hc => ?_
    · obtain ⟨c, hc, -, hlk⟩ := hL.link_in_block har hz
      have := hout i z hz c hc
      exact hag y (by omega)
    · rw [writeBlock_heapStart] at hc ⊢
      have hside := hout i z hz c hc
      rw [hbs] at hc
      rcases blockAt_append.1 hc with hc | hc
      · rcases blockAt_append.1 hc with hc | hc
        · exact blockAt_append.2 (.inl hc)
        · have := blockAt_bound hc; have := (hokM c (blockAt_mem hc)).2; omega
      · refine blockAt_append.2 (.inr (blockAt_cons.2 (.inr ?_)))
        simpa [Nat.add_assoc] using hc

/-- Writing the merged block over the free blocks `M`, pushing it on its list and
clearing the next header's flags gives the heap invariant back. -/
theorem merge_spec (hbs : h.blocks = L ++ M ++ R) (hM : ∀ c ∈ M, c.alloc = false)
    (hM32 : 32 ≤ span M) (hn : span M = n) (hp : s.heapStart + span L = p)
    (har : Arena s h.blocks) (hL : Lists s h)
    (hout : ∀ i, ∀ z ∈ h.bins i, ∀ c, BlockAt s.heapStart h.blocks z c →
      z + c.size ≤ p ∨ p + span M ≤ z)
    (hseg : Seg s.mem s.heapStart (true, false) L)
    (htl : Tail s.mem (p + span M) f' R) (hR : ∀ c ∈ R.head?, c.alloc = true)
    (hlisted : ∀ z c, BlockAt s.heapStart h.blocks z c → c.alloc = false →
      z + c.size ≤ p ∨ p + span M ≤ z → z ∈ h.bins (getListIndex c.size))
    (hchain : (L ++ ⟨n, false⟩ :: R).Chain' NotBothFree)
    (hs' : clearNextFlags (insertNormalOrMini (writeBlock s p n false
      (endFlags (true, false) L).1 (endFlags (true, false) L).2) p) p = s') :
    HeapInv s' (Heap.push { h with blocks := L ++ ⟨n, false⟩ :: R } (getListIndex n) p) ∧
      s'.lo = s.lo ∧ s'.brk = s.brk ∧ s'.heapStart = s.heapStart ∧
      s'.segList (getListIndex n) = p ∧
      Agree (fun y => OutFree s.heapStart h.blocks y ∧ (y < p + n ∨ p + n + 8 ≤ y))
        s.mem s'.mem := by
  subst hn
  obtain ⟨har₂, hL₂, hseg₂, htl₂, hlo₂, hbrk₂, hst₂, -, hag₂⟩ :=
    writeMerged_spec hbs (by omega) hp har hL hout hseg htl rfl
  -- a block of the new list is the merged one or an old block outside it
  have hback : ∀ z c, BlockAt s.heapStart (L ++ ⟨span M, false⟩ :: R) z c →
      (z = p ∧ c = ⟨span M, false⟩) ∨
        (BlockAt s.heapStart h.blocks z c ∧ (z + c.size ≤ p ∨ p + span M ≤ z)) := by
    intro z c hz
    rcases blockAt_append.1 hz with hz | hz
    · refine .inr ⟨by rw [hbs]; exact blockAt_append.2 (.inl (blockAt_append.2 (.inl hz))), ?_⟩
      have := blockAt_bound hz; omega
    · obtain ⟨rfl, rfl⟩ | hz := blockAt_cons.1 hz
      · exact .inl ⟨hp, rfl⟩
      · refine .inr ⟨?_, .inr (by have := blockAt_bound hz; simp only at this; omega)⟩
        rw [hbs]; exact blockAt_append.2 (.inr (by simpa [Nat.add_assoc] using hz))
  -- the merged block's bytes all belong to blocks of `M`, which are free
  have hinM : ∀ y, p ≤ y → y < p + span M → ¬ OutFree s.heapStart h.blocks y := by
    intro y h₁ h₂ hy
    obtain ⟨z, c, hz, h₃, h₄⟩ := exists_blockAt h₁ h₂
    have hz' : BlockAt s.heapStart h.blocks z c := by
      rw [hbs]; exact blockAt_append.2 (.inl (blockAt_append.2 (.inr (hp ▸ hz))))
    rcases hy z c hz' (hM c (blockAt_mem hz)) with h | h <;> omega
  have hnot : ∀ i, p ∉ h.bins i := by
    intro i hpi
    obtain ⟨c, hc, -, -⟩ := hL.members i p hpi
    have := (har.blk hc).2.1
    rcases hout i p hpi c hc with h' | h' <;> omega
  obtain ⟨hinv, hlo₃, hbrk₃, hst₃, hhd, hfb₃⟩ := insertClear_spec (h := { h with blocks := _ }) rfl
    hM32 (by rw [hst₂, hp]) har₂ hL₂ hnot (hst₂ ▸ hseg₂) htl₂ hR (fun z c hz hc hzp => by
      rw [hst₂] at hz
      rcases hback z c hz with ⟨rfl, -⟩ | ⟨hz', hside⟩
      · exact absurd rfl hzp
      · exact hlisted z c hz' hc hside) hchain hs'
  refine ⟨hinv, hlo₃.trans hlo₂, hbrk₃.trans hbrk₂, hst₃.trans hst₂, hhd, ?_⟩
  refine (hag₂.mono fun y hy => ?_).trans (hfb₃.mono fun y hy => ⟨?_, hy.2⟩)
  · by_contra hin
    exact hinM y (by omega) (by omega) hy.1
  · rintro ⟨z, c, hz, hc, h₃, h₄⟩
    rw [hst₂] at hz
    rcases hback z c hz with ⟨rfl, rfl⟩ | ⟨hz', -⟩
    · exact hinM y (by omega) (by simpa using h₄) hy.1
    · rcases hy.1 z c hz' hc with h' | h' <;> omega

end Merge

end SegMalloc.Merge
