import SegMalloc.Abstraction
import SegMalloc.Footprint

/-! `free` undoes `malloc`. A `malloc(n)` served from a listed free block allocates its first
`a(n)` bytes and splits the rest off as a free block. `free` of the returned pointer merges the
two again: the block before is allocated, since no two neighbours are free, and the block after
is the remainder, or was already after the free block. So the pair leaves the walk exactly as it
was. The lists hold exactly the free blocks of the walk, each once, so every list ends up with
the same blocks, in some order: a `malloc` answered by its `free` leaves no fragment behind. -/
namespace SegMalloc.Undo
open Header Block FindFit Api Layout Invariant CoalesceSpec FreeSpec FitSpec AllocSpec MallocSpec
  Run Reachable Abstraction Footprint

section Heaps

variable {s s' : State} {h h' : Heap}

/-- The lists hold exactly the free blocks of the walk, each on the list of its size. -/
theorem mem_bins (hinv : HeapInv s h) {i x : Nat} :
    x ∈ h.bins i ↔
      ∃ c, BlockAt s.heapStart h.blocks x c ∧ c.alloc = false ∧ getListIndex c.size = i :=
  ⟨hinv.lists.members i x, fun ⟨c, hc, ha, hi⟩ => hi ▸ hinv.listed x c hc ha⟩

/-- Two states with one walk from one `heap_start` have the same lists, each up to order. -/
theorem bins_perm (hinv : HeapInv s h) (hinv' : HeapInv s' h')
    (hst : s'.heapStart = s.heapStart) (hb : h'.blocks = h.blocks) (i : Nat) :
    (h'.bins i).Perm (h.bins i) :=
  (List.perm_ext_iff_of_nodup (hinv'.lists.nodup i) (hinv.lists.nodup i)).2 fun x => by
    rw [mem_bins hinv', mem_bins hinv, hst, hb]

end Heaps

section Alloc

variable {s : State} {h : Heap} {pre post : List Blk} {F : Blk} {asize : Nat}

/-- Freeing the block just cut from the free block `F` merges it with the remainder back into
`F`. -/
theorem coalesceBlocks_split (hinv : HeapInv s h) (hbs : h.blocks = pre ++ F :: post)
    (hF : F.alloc = false) (hle : asize ≤ F.size) :
    coalesceBlocks pre ⟨asize, false⟩
      (if F.size = asize then post else ⟨F.size - asize, false⟩ :: post) = h.blocks := by
  obtain ⟨hpre, hpost⟩ := free_neighbours hinv hbs hF
  obtain ⟨S, a⟩ := F
  obtain rfl : a = false := hF
  unfold coalesceBlocks mergedSize
  rw [absorbPrev_of_alloc hpre, hbs]
  simp only at hle ⊢
  split_ifs with hS
  · rw [absorbNext_of_alloc hpost]; simp [hS]
  · rw [absorbNext_of_free rfl]; simp [Nat.add_sub_cancel' hle]

end Alloc

/-- In every reachable system with the heap initialized, a `malloc(n)` that `find_fit` serves
from a listed block, followed by `free` of the pointer it returns, leaves the arena's break and
the walk from `heap_start` as they were, and every list with the same blocks in some order. -/
theorem malloc_free_restores (ok : Nat → Bool) {σ : Sys} {n : Nat} (hR : Reach InitOnce σ)
    (hst : σ.st.heapStart ≠ 0) (hn₁ : 1 ≤ n) (hn : n ≤ 2 ^ 64 - 24)
    (hf : findFit σ.st (adjustSize n) ≠ 0) :
    ∃ s₁ p s₂, malloc ok σ.st n = some (s₁, p) ∧ p ≠ 0 ∧ free s₁ p = some s₂ ∧
      s₂.brk = σ.st.brk ∧ ∀ h, HeapInv σ.st h →
        ∃ h₂, HeapInv s₂ h₂ ∧ h₂.blocks = h.blocks ∧ ∀ i, (h₂.bins i).Perm (h.bins i) := by
  rcases hR.sysInv with ⟨hU, -⟩ | ⟨-, h, hinv, -⟩
  · exact absurd hU.1 hst
  obtain ⟨h16, hmin, hlt, -⟩ := adjustSize_bounds hn
  -- the block `find_fit` returns is a listed free block `F` of the walk
  obtain ⟨i, c, hzi, hz, hle⟩ := (findFit_spec hinv hmin h16).1.resolve_left hf
  obtain ⟨F, hz', hF, hFi⟩ := hinv.lists.members i _ hzi
  obtain rfl := blockAt_unique hinv.arena.sizes hz' hz
  obtain ⟨pre, post, hbs, hx⟩ := hz
  obtain ⟨s₁, h₁, hcode, hinv₁, hbl₁, hst₁, hbrk₁, -⟩ :=
    allocBlock_blocks hinv hbs hF (hx ▸ hFi ▸ hzi) hle h16 hmin
  have hm : malloc ok σ.st n = some (s₁, σ.st.heapStart + span pre + 8) := by
    rw [malloc_eq ok _ n hst (by omega), if_neg hf, Option.some_bind]
    dsimp only
    rw [if_neg hf, hx, hcode]
  obtain ⟨s₂, h₂, hfree, hco⟩ := free_spec hinv₁ hbl₁ (A := ⟨adjustSize n, true⟩) rfl
  rw [hst₁] at hfree
  have hb₂ : h₂.blocks = h.blocks := hco.blocks.trans (coalesceBlocks_split hinv hbs hF hle)
  refine ⟨s₁, _, s₂, hm, by omega, hfree, hco.brk.trans hbrk₁, fun h' hinv' => ?_⟩
  obtain rfl := heapInv_unique hinv hinv'
  exact ⟨h₂, hco.inv, hb₂, bins_perm hinv hco.inv (hco.heapStart.trans hst₁) hb₂⟩

/-- After `mm_init` and `malloc(1)`, a second `malloc(1)` and its `free`. -/
theorem malloc_free_restores_mallocSys : Reach InitOnce mallocSys ∧ mallocSys.st.heapStart ≠ 0 ∧
    1 ≤ 1 ∧ 1 ≤ 2 ^ 64 - 24 ∧ findFit mallocSys.st (adjustSize 1) ≠ 0 ∧
    ∃ s₁ p s₂, malloc (fun _ => true) mallocSys.st 1 = some (s₁, p) ∧ p ≠ 0 ∧
      free s₁ p = some s₂ ∧ s₂.brk = mallocSys.st.brk ∧ ∀ h, HeapInv mallocSys.st h →
        ∃ h₂, HeapInv s₂ h₂ ∧ h₂.blocks = h.blocks ∧ ∀ i, (h₂.bins i).Perm (h.bins i) :=
  have hf : findFit mallocSys.st (adjustSize 1) ≠ 0 := by decide
  ⟨reach_mallocSys, by decide, le_rfl, by decide, hf,
    malloc_free_restores _ reach_mallocSys (by decide) le_rfl (by decide) hf⟩

end SegMalloc.Undo
