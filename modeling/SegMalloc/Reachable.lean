import SegMalloc.Run

/-! What holds in every system a client keeping the interface's contract reaches, calling
`mm_init` only on the uninitialized heap: the consequences of `SysInv` for the search, the
heap and the client's pointers, and the requests the contract leaves out. Runs from the empty
arena show what a second `mm_init` does to the heap. -/
namespace SegMalloc.Reachable
open Header Block FindFit Api Layout Invariant FitSpec AllocSpec Table MallocSpec Run

/-! ## Runs from the empty arena -/

/-- The uninitialized allocator over the empty arena at address 0. -/
def emptyState : State := ⟨fun _ => 0, 0, 0, 0, fun _ => 0⟩

/-- The allocator after `mm_init` on the empty arena, every request granted: the prologue at 0,
one free block of `chunksize` bytes at 8, the epilogue at 2056. -/
def initSys : Sys := ⟨((mmInit (fun _ => true) emptyState).getD (emptyState, false)).1, []⟩

theorem initSys_call : Sys.call (fun _ => true) ⟨emptyState, []⟩ .init = some initSys := rfl

theorem reach_initSys : Reach InitOnce initSys :=
  .step _ .init (.start emptyState rfl rfl fun _ _ => rfl) ⟨trivial, fun _ => rfl⟩ initSys_call

/-- Then `malloc(1)`: the client holds 16, the payload of a 16-byte block at 8. -/
def mallocSys : Sys := ⟨((malloc (fun _ => true) initSys.st 1).getD (emptyState, 0)).1, [16]⟩

theorem mallocSys_call : initSys.call (fun _ => true) (.malloc 1) = some mallocSys := rfl

theorem reach_mallocSys : Reach InitOnce mallocSys :=
  .step _ (.malloc 1) reach_initSys ⟨show 1 ≤ 2 ^ 64 - 24 by decide, Call.noConfusion⟩ mallocSys_call

/-! ## The search -/

/-- `find_fit` in every reachable system, for each size the allocator asks it for: `NULL` or a
free block of at least `asize` bytes on the list of its size, a block of the mini list only
for 16 bytes, and no `free.next` read of a block of the mini list. -/
theorem findFit_reach {σ : Sys} {asize : Nat} (hR : Reach InitOnce σ)
    (hasize : asize = 16 ∨ (asize % 16 = 0 ∧ 32 ≤ asize)) :
    (Uninit σ.st ∧ findFit σ.st asize = 0 ∧ findFitReads σ.st asize = []) ∨
      ∃ h, HeapInv σ.st h ∧
        (findFit σ.st asize = 0 ∨ ∃ c, BlockAt σ.st.heapStart h.blocks (findFit σ.st asize) c ∧
          c.alloc = false ∧ asize ≤ c.size ∧ findFit σ.st asize ∈ h.bins (getListIndex c.size)) ∧
        (findFit σ.st asize ∈ h.bins 0 → asize = 16) ∧
        ∀ z ∈ findFitReads σ.st asize, z ∉ h.bins 0 := by
  have h16 : asize % 16 = 0 := by omega
  have hmin : 16 ≤ asize := by omega
  rcases hR.sysInv with ⟨hU, -⟩ | ⟨-, h, hinv, -⟩
  · exact .inl ⟨hU, findFit_of_empty hU.2.2⟩
  have har := hinv.arena
  -- the block returned is a listed free block of its own size class
  have hfit : findFit σ.st asize = 0 ∨ ∃ c, BlockAt σ.st.heapStart h.blocks (findFit σ.st asize) c ∧
      c.alloc = false ∧ asize ≤ c.size ∧ findFit σ.st asize ∈ h.bins (getListIndex c.size) := by
    rcases (findFit_spec hinv hmin h16).1 with h0 | ⟨i, c, hz, hc, hle⟩
    · exact .inl h0
    · obtain ⟨c', hc', hfree, hcls⟩ := hinv.lists.members i _ hz
      obtain rfl := blockAt_unique har.sizes hc hc'
      exact .inr ⟨c, hc, hfree, hle, hcls ▸ hz⟩
  refine .inr ⟨h, hinv, hfit, fun hz => ?_, fun z hz hz0 => ?_⟩
  · -- a block of the mini list has 16 bytes
    rcases hfit with h0 | ⟨c, hc, -, hle, -⟩
    · exact absurd (h0 ▸ hz) fun h' => (hinv.lists.pos har h').ne' rfl
    · obtain ⟨c', hc', -, -, ⟨-, h16'⟩ | ⟨hpos, -⟩⟩ := hinv.lists.size_of_mem har hz
      · obtain rfl := blockAt_unique har.sizes hc hc'
        omega
      · exact absurd hpos (lt_irrefl 0)
  · -- the scan reads `free.next` of nodes of lists `1..14` only
    obtain ⟨i, hi, hzi⟩ := findFitReads_spec hinv z hz
    rcases hinv.lists.apart har hzi hz0 with ⟨-, rfl⟩ | h' | h'
    · exact lt_irrefl 0 hi
    · omega
    · omega

/-- After `mm_init` and `malloc(1)`, with a 16-byte request: the mini list is empty, so the scan
starts at list 0 and finds the free block at 24, reading its `free.next` once. -/
theorem findFit_reach_mallocSys : Reach InitOnce mallocSys ∧ (16 = 16 ∨ (16 % 16 = 0 ∧ 32 ≤ 16)) ∧
    findFit mallocSys.st 16 = 24 ∧ findFitReads mallocSys.st 16 = [24] ∧
    ((Uninit mallocSys.st ∧ findFit mallocSys.st 16 = 0 ∧ findFitReads mallocSys.st 16 = []) ∨
      ∃ h, HeapInv mallocSys.st h ∧
        (findFit mallocSys.st 16 = 0 ∨ ∃ c, BlockAt mallocSys.st.heapStart h.blocks
          (findFit mallocSys.st 16) c ∧ c.alloc = false ∧ 16 ≤ c.size ∧
          findFit mallocSys.st 16 ∈ h.bins (getListIndex c.size)) ∧
        (findFit mallocSys.st 16 ∈ h.bins 0 → 16 = 16) ∧
        ∀ z ∈ findFitReads mallocSys.st 16, z ∉ h.bins 0) :=
  ⟨reach_mallocSys, .inl rfl, by decide, by decide, findFit_reach reach_mallocSys (.inl rfl)⟩

/-! ## The heap invariant -/

/-- Every system a client reaches calling `mm_init` only on the uninitialized heap satisfies
the heap invariant once `heap_start` is set. -/
theorem heapInv_reach {σ : Sys} (hR : Reach InitOnce σ) (hst : σ.st.heapStart ≠ 0) :
    ∃ h, HeapInv σ.st h := by
  rcases hR.sysInv with ⟨hU, -⟩ | ⟨-, h, hinv, -⟩
  · exact absurd hU.1 hst
  · exact ⟨h, hinv⟩

/-- After `mm_init` and `malloc(1)`. -/
theorem heapInv_mallocSys : Reach InitOnce mallocSys ∧ mallocSys.st.heapStart ≠ 0 ∧
    ∃ h, HeapInv mallocSys.st h :=
  ⟨reach_mallocSys, by decide, heapInv_reach reach_mallocSys (by decide)⟩

/-- After `mm_init` on the empty arena, a second `mm_init` whose arena request is refused:
it has cleared the list heads, and `heap_start` still points at the free block. -/
def reinitSys : Sys := ⟨((mmInit (fun _ => false) initSys.st).getD (emptyState, false)).1, []⟩

/-- A run keeping the contract that reaches, with `heap_start` set, a heap whose free block
at `heap_start` is on no list. -/
theorem heapInv_reinit : Reach Contract reinitSys ∧ reinitSys.st.heapStart ≠ 0 ∧
    getSize reinitSys.st reinitSys.st.heapStart = 2048 ∧
    getAlloc reinitSys.st reinitSys.st.heapStart = false ∧
    (∀ i < segListNum, reinitSys.st.segList i = 0) ∧ ¬ ∃ h, HeapInv reinitSys.st h := by
  have hal : getAlloc reinitSys.st reinitSys.st.heapStart = false := by decide
  have h0 : ∀ i < segListNum, reinitSys.st.segList i = 0 := by decide
  have hR : Reach Contract reinitSys :=
    .step (fun _ => false) .init (.step _ .init (.start emptyState rfl rfl fun _ _ => rfl)
      trivial initSys_call) trivial rfl
  refine ⟨hR, by decide, by decide, hal, h0, fun ⟨h, hinv⟩ => ?_⟩
  have hspan : reinitSys.st.heapStart = 8 ∧ reinitSys.st.brk = 2064 := by decide
  -- the walk from `heap_start` holds a first block, free by its header
  obtain ⟨c, t, hbs⟩ : ∃ c t, h.blocks = c :: t := by
    cases hb : h.blocks with
    | nil => have := hinv.arena.brk; rw [hb, span_nil] at this; omega
    | cons c t => exact ⟨c, t, rfl⟩
  have hc : BlockAt reinitSys.st.heapStart h.blocks reinitSys.st.heapStart c := ⟨[], t, hbs, rfl⟩
  have := (hinv.read hc).2.symm.trans hal
  rw [hinv.alloc_of_heads h0 hc] at this
  exact Bool.noConfusion this

/-! ## The client's pointers -/

/-- Modelled from the spec: the client's pointers against the blocks of `h`. Each is the
payload of an allocated block, 16-aligned, between the prologue and the epilogue and on no
free list; the payloads of two of them are disjoint; and every allocated block's payload is
held, once. -/
structure LivePtrs (σ : Sys) (h : Heap) : Prop where
  nodup : σ.live.Nodup
  block : ∀ p ∈ σ.live, BlockAt σ.st.heapStart h.blocks (p - 8) ⟨getSize σ.st (p - 8), true⟩
  aligned : ∀ p ∈ σ.live, p % 16 = 0
  inside : ∀ p ∈ σ.live, σ.st.heapStart + 8 ≤ p ∧ p + (getSize σ.st (p - 8) - 8) ≤ σ.st.brk - 8
  unlisted : ∀ p ∈ σ.live, ∀ i, p - 8 ∉ h.bins i
  disjoint : ∀ p ∈ σ.live, ∀ q ∈ σ.live, p ≠ q →
    p + (getSize σ.st (p - 8) - 8) ≤ q ∨ q + (getSize σ.st (q - 8) - 8) ≤ p
  held : ∀ x n, BlockAt σ.st.heapStart h.blocks x ⟨n, true⟩ → x + 8 ∈ σ.live

/-- A pointer the client holds is the payload of an allocated block, which its header reads
back as. -/
theorem held_block {s : State} {h : Heap} {live : List Nat} (hinv : HeapInv s h)
    (hl : live.Perm (payloads s.heapStart h.blocks)) {p : Nat} (hp : p ∈ live) :
    8 ≤ p ∧ BlockAt s.heapStart h.blocks (p - 8) ⟨getSize s (p - 8), true⟩ := by
  obtain ⟨n, hq, h8⟩ := mem_payloads.1 (hl.subset hp)
  have hb := mem_allocs.1 hq
  rw [(hinv.read hb).1]
  exact ⟨h8, hb⟩

/-- In every system reached calling `mm_init` only on the uninitialized heap, over an arena
based at a multiple of 16, the client's pointers are the payloads of the allocated blocks. -/
theorem livePtrs_reach {σ : Sys} (hR : Reach InitOnce σ) (hlo : σ.st.lo % 16 = 0) :
    (Uninit σ.st ∧ σ.live = []) ∨ ∃ h, HeapInv σ.st h ∧ LivePtrs σ h := by
  rcases hR.sysInv with hU | ⟨-, h, hinv, hl⟩
  · exact .inl hU
  have har := hinv.arena
  have hblk := fun p (hp : p ∈ σ.live) => held_block hinv hl hp
  refine .inr ⟨h, hinv, hl.nodup_iff.2 (payloads_nodup _ har.sizes), fun p hp => (hblk p hp).2,
    fun p hp => ?_, fun p hp => ?_, fun p hp i hi => ?_, fun p hp q hq hne => ?_,
    fun x n hx => hl.symm.subset (mem_payloads.2 ⟨n, by simpa using mem_allocs.2 hx, by omega⟩)⟩
  · -- the block lies a multiple of 16 bytes after `heap_start = lo + 8`
    obtain ⟨h8, pre, post, hbs, hx⟩ := hblk p hp
    have hok := har.sizes
    rw [hbs, sizesOk_append] at hok
    have := span_mod hok.1
    have := har.start
    omega
  · obtain ⟨h8, hb⟩ := hblk p hp
    have := har.blk hb
    have := blockAt_bound hb
    simp only at *
    omega
  · obtain ⟨c, hc, hfree, -⟩ := hinv.lists.members i _ hi
    rw [← blockAt_unique har.sizes (hblk p hp).2 hc] at hfree
    exact Bool.noConfusion hfree
  · obtain ⟨h8, hb⟩ := hblk p hp
    obtain ⟨h8', hb'⟩ := hblk q hq
    rcases blockAt_apart har.sizes hb hb' with ⟨he, -⟩ | h | h
    · omega
    · simp only at h; omega
    · simp only at h; omega

/-- After `mm_init` and `malloc(1)`, holding 16. -/
theorem livePtrs_mallocSys : Reach InitOnce mallocSys ∧ mallocSys.st.lo % 16 = 0 ∧
    ((Uninit mallocSys.st ∧ mallocSys.live = []) ∨
      ∃ h, HeapInv mallocSys.st h ∧ LivePtrs mallocSys h) :=
  ⟨reach_mallocSys, by decide, livePtrs_reach reach_mallocSys (by decide)⟩

/-- After `malloc(1)`, a second `mm_init` with every request granted: it lays out a new heap
above the old one, and the client still holds 16. -/
def moveSys : Sys := ⟨((mmInit (fun _ => true) mallocSys.st).getD (emptyState, false)).1, [16]⟩

/-- A run keeping the contract after which the client holds 16, below the new prologue. -/
theorem livePtrs_reinit : Reach Contract moveSys ∧ moveSys.st.lo % 16 = 0 ∧ 16 ∈ moveSys.live ∧
    16 < moveSys.st.heapStart - 8 ∧
    ¬ ((Uninit moveSys.st ∧ moveSys.live = []) ∨ ∃ h, HeapInv moveSys.st h ∧ LivePtrs moveSys h) := by
  have hst : moveSys.st.heapStart = 2072 := by decide
  have hR : Reach Contract moveSys :=
    .step (fun _ => true) .init (.step _ (.malloc 1) (.step _ .init
      (.start emptyState rfl rfl fun _ _ => rfl) trivial initSys_call) (show 1 ≤ 2 ^ 64 - 24 by decide) mallocSys_call)
      trivial rfl
  refine ⟨hR, by decide, List.mem_singleton_self _, by omega, ?_⟩
  rintro (⟨-, hl⟩ | ⟨h, -, hP⟩)
  · exact List.cons_ne_nil _ _ hl
  · have := (hP.inside 16 (List.mem_singleton_self _)).1
    omega

/-! ## Requests at the top of the range -/

/-- A request within 8 of `2^64` wraps in `round_up(size + wsize, dsize)` to 16 bytes. -/
theorem adjustSize_wrap {n : Nat} (h₁ : 2 ^ 64 - 8 < n) (h₂ : n < 2 ^ 64) : adjustSize n = 16 := by
  unfold adjustSize roundUp usize dsize wsize
  rw [if_neg (by omega)]
  simp only [Nat.reduceMul, Nat.reduceSub]
  omega

/-- On every initialized reachable heap, `malloc(n)` with `n` within 8 of `2^64` returns `NULL`
or the payload of a 16-byte block: 8 bytes for a request of more than `2^64 - 8`. -/
theorem malloc_wrap (ok : Nat → Bool) {σ : Sys} (hR : Reach InitOnce σ)
    (hst : σ.st.heapStart ≠ 0) {n : Nat} (h₁ : 2 ^ 64 - 8 < n) (h₂ : n < 2 ^ 64) :
    ∃ r, malloc ok σ.st n = some r ∧ (r.2 = 0 ∨ getSize r.1 (r.2 - 8) = 16) := by
  rcases hR.sysInv with ⟨hU, -⟩ | ⟨-, h, hinv, -⟩
  · exact absurd hU.1 hst
  have ha := adjustSize_wrap h₁ h₂
  obtain ⟨r, hr, ⟨rfl, -⟩ | ⟨-, S, h', hA, -⟩⟩ :=
    malloc_spec ok hinv hst (show n ≠ 0 by omega) (by rw [ha]) (by rw [ha]) (by rw [ha]; norm_num)
  · exact ⟨_, hr, .inl rfl⟩
  refine ⟨r, hr, .inr ?_⟩
  obtain ⟨pre, post, hbs, hp⟩ := hA.blocks
  have hb : BlockAt r.1.heapStart h'.blocks (r.2 - 8) ⟨adjustSize n, true⟩ :=
    ⟨pre, _, hbs, by rw [hA.heapStart]; omega⟩
  rw [(hA.inv.read hb).1, ha]

/-- After `mm_init`, `malloc(2^64 - 1)` returns 16, the payload of a 16-byte block. -/
theorem malloc_wrap_initSys : Reach InitOnce initSys ∧ initSys.st.heapStart ≠ 0 ∧
    2 ^ 64 - 8 < 2 ^ 64 - 1 ∧ 2 ^ 64 - 1 < 2 ^ 64 ∧
    (∃ r, malloc (fun _ => true) initSys.st (2 ^ 64 - 1) = some r ∧
      (r.2 = 0 ∨ getSize r.1 (r.2 - 8) = 16)) ∧
    (malloc (fun _ => true) initSys.st (2 ^ 64 - 1)).map (fun r => (r.2, getSize r.1 (r.2 - 8))) =
      some (16, 16) :=
  ⟨reach_initSys, by decide, by decide, by decide,
    malloc_wrap _ reach_initSys (by decide) (by decide) (by decide), by decide⟩

end SegMalloc.Reachable
