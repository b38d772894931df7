import SegMalloc.Reachable

/-! The abstract heap a state represents is unique. The blocks are read off the headers from
`heap_start` up to the epilogue, and each free list off the links from its head up to `NULL`,
so two abstract heaps that both satisfy the heap invariant over one state are equal: the
invariant defines an abstraction function from states to abstract heaps. -/
namespace SegMalloc.Abstraction
open Memory Header Block Layout Links Invariant Run Reachable

/-- Two headers with 16-aligned sizes that are the same word have the same size and alloc
bit. -/
theorem pack_size_alloc_eq {size size' : Nat} {a a' pa pa' pm pm' : Bool}
    (h16 : size % 16 = 0) (hs : size < 2 ^ 64) (h16' : size' % 16 = 0) (hs' : size' < 2 ^ 64)
    (h : pack size a pa pm = pack size' a' pa' pm') : size = size' ∧ a = a' := by
  have hs₁ := congrArg extractSize h
  have ha₁ := congrArg extractAlloc h
  rw [extractSize_pack h16 hs, extractSize_pack h16' hs'] at hs₁
  rw [extractAlloc_pack h16 hs, extractAlloc_pack h16' hs'] at ha₁
  exact ⟨hs₁, ha₁⟩

section Walk

variable {m : Mem}

/-- The walk from an address reads one block sequence: each header gives a block's size and
alloc bit, and the epilogue's size 0 ends the walk, where no block can end it. -/
theorem tail_unique : ∀ {a : Nat} {f : Bool × Bool} {bs bs' : List Blk}, SizesOk bs →
    SizesOk bs' → a + span bs < 2 ^ 64 → a + span bs' < 2 ^ 64 → Tail m a f bs →
    Tail m a f bs' → bs = bs'
  | _, _, [], [], _, _, _, _, _, _ => rfl
  | _, _, [], b :: _, _, hok', _, hlt', he, ⟨hb, _⟩ => by
    have := hok' b (List.mem_cons_self _ _)
    have := (pack_size_alloc_eq (by norm_num) (by norm_num) this.1 (by simp at hlt'; omega)
      (he.symm.trans hb.1)).1
    omega
  | _, _, b :: _, [], hok, _, hlt, _, ⟨hb, _⟩, he => by
    have := hok b (List.mem_cons_self _ _)
    have := (pack_size_alloc_eq (by norm_num) (by norm_num) this.1 (by simp at hlt; omega)
      (he.symm.trans hb.1)).1
    omega
  | _, _, b :: bs, b' :: bs', hok, hok', hlt, hlt', ⟨hb, ht⟩, ⟨hb', ht'⟩ => by
    rw [sizesOk_cons] at hok hok'
    simp only [span_cons] at hlt hlt'
    obtain ⟨hsz, hal⟩ := pack_size_alloc_eq hok.1.1 (by omega) hok'.1.1 (by omega)
      (hb.1.symm.trans hb'.1)
    have e : b = b' := by
      obtain ⟨size, alloc⟩ := b
      obtain ⟨size', alloc'⟩ := b'
      simp only at hsz hal
      rw [hsz, hal]
    subst e
    rw [tail_unique hok.2 hok'.2 (by omega) (by omega) ht ht']

end Walk

section Chains

variable {m : Mem}

/-- A `NULL`-terminated list of non-`NULL` nodes linked by `free.next` is determined by its
head. -/
theorem freeChain_unique : ∀ {L L' : List Nat} {p p' : Nat}, FreeChain m p L 0 →
    FreeChain m p' L' 0 → (∀ x ∈ L, x ≠ 0) → (∀ x ∈ L', x ≠ 0) → L.headD 0 = L'.headD 0 → L = L'
  | [], [], _, _, _, _, _, _, _ => rfl
  | [], x :: _, _, _, _, _, _, h0', hd => absurd hd.symm (h0' x (List.mem_cons_self _ _))
  | x :: _, [], _, _, _, _, h0, _, hd => absurd hd (h0 x (List.mem_cons_self _ _))
  | x :: xs, y :: ys, _, _, ⟨_, hn, hc⟩, ⟨_, hn', hc'⟩, h0, h0', hd => by
    obtain rfl : x = y := hd
    rw [freeChain_unique hc hc' (fun z hz => h0 z (List.mem_cons_of_mem _ hz))
      (fun z hz => h0' z (List.mem_cons_of_mem _ hz)) (hn.symm.trans hn')]

/-- The same for the mini list, linked by `next_mini`. -/
theorem miniChain_unique : ∀ {L L' : List Nat}, MiniChain m L 0 → MiniChain m L' 0 →
    (∀ x ∈ L, x ≠ 0) → (∀ x ∈ L', x ≠ 0) → L.headD 0 = L'.headD 0 → L = L'
  | [], [], _, _, _, _, _ => rfl
  | [], x :: _, _, _, _, h0', hd => absurd hd.symm (h0' x (List.mem_cons_self _ _))
  | x :: _, [], _, _, h0, _, hd => absurd hd (h0 x (List.mem_cons_self _ _))
  | x :: xs, y :: ys, ⟨hn, hc⟩, ⟨hn', hc'⟩, h0, h0', hd => by
    obtain rfl : x = y := hd
    rw [miniChain_unique hc hc' (fun z hz => h0 z (List.mem_cons_of_mem _ hz))
      (fun z hz => h0' z (List.mem_cons_of_mem _ hz)) (hn.symm.trans hn')]

end Chains

/-- The heap invariant determines the abstract heap: a state represents at most one. -/
theorem heapInv_unique {s : State} {h h' : Heap} (hinv : HeapInv s h) (hinv' : HeapInv s h') :
    h = h' := by
  have hfit := hinv.arena.fit
  have hfit' := hinv'.arena.fit
  have hblocks : h.blocks = h'.blocks :=
    tail_unique hinv.arena.sizes hinv'.arena.sizes (by omega) (by omega) hinv.walk hinv'.walk
  have hbins : ∀ i, h.bins i = h'.bins i := fun i => by
    have h0 : ∀ x ∈ h.bins i, x ≠ 0 := fun x hx => (hinv.lists.pos hinv.arena hx).ne'
    have h0' : ∀ x ∈ h'.bins i, x ≠ 0 := fun x hx => (hinv'.lists.pos hinv'.arena hx).ne'
    by_cases hi : i < segListNum
    · have hd := (hinv.lists.heads i hi).symm.trans (hinv'.lists.heads i hi)
      rcases Nat.eq_zero_or_pos i with rfl | hpos
      · exact miniChain_unique hinv.lists.mini hinv'.lists.mini h0 h0' hd
      · exact freeChain_unique (hinv.lists.links i hpos) (hinv'.lists.links i hpos) h0 h0' hd
    · -- past the fifteen lists both are empty
      rw [List.eq_nil_iff_forall_not_mem.2 fun x => hinv.lists.not_mem_of_ge hinv.arena (by omega),
        List.eq_nil_iff_forall_not_mem.2 fun x => hinv'.lists.not_mem_of_ge hinv'.arena (by omega)]
  obtain ⟨blocks, bins⟩ := h
  obtain ⟨blocks', bins'⟩ := h'
  simp only at hblocks hbins
  rw [hblocks, funext hbins]

/-- Every reachable system with the heap initialized represents exactly one abstract heap. -/
theorem heap_unique_reach {σ : Sys} (hR : Reach InitOnce σ) (hst : σ.st.heapStart ≠ 0) :
    ∃! h, HeapInv σ.st h := by
  rcases hR.sysInv with ⟨hU, -⟩ | ⟨-, h, hinv, -⟩
  · exact absurd hU.1 hst
  · exact ⟨h, hinv, fun h' hinv' => (heapInv_unique hinv hinv').symm⟩

/-- After `mm_init` and `malloc(1)`. -/
theorem heap_unique_mallocSys : Reach InitOnce mallocSys ∧ mallocSys.st.heapStart ≠ 0 ∧
    ∃! h, HeapInv mallocSys.st h :=
  ⟨reach_mallocSys, by decide, heap_unique_reach reach_mallocSys (by decide)⟩

end SegMalloc.Abstraction
