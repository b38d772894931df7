import SegMalloc.Links

/-! The heap invariant. A state represents an abstract `Heap`, the implicit list of
blocks and the fifteen free lists as address lists, when the arena holds the prologue,
the blocks and the epilogue (`Arena`, `Tail`) and the lists are linked in memory with
free blocks of their size class as members (`Lists`). `HeapInv` adds that every free
block is listed and that no two free blocks are adjacent. -/
namespace SegMalloc.Invariant
open Memory Header Block FreeList Layout Links

open State

/-- The abstract heap: the blocks from `heap_start`, and the free lists. -/
structure Heap where
  blocks : List Blk
  bins : Nat → List Nat

/-- `x` pushed on list `i`. -/
def Heap.push (h : Heap) (i x : Nat) : Heap :=
  { h with bins := Function.update h.bins i (x :: h.bins i) }

/-- `x` removed from list `i`. -/
def Heap.erase (h : Heap) (i x : Nat) : Heap :=
  { h with bins := Function.update h.bins i ((h.bins i).erase x) }

@[simp] theorem Heap.push_blocks (h : Heap) (i x : Nat) : (h.push i x).blocks = h.blocks := rfl

@[simp] theorem Heap.erase_blocks (h : Heap) (i x : Nat) : (h.erase i x).blocks = h.blocks := rfl

theorem Heap.push_bins (h : Heap) (i x j : Nat) :
    (h.push i x).bins j = if j = i then x :: h.bins i else h.bins j := by
  by_cases hj : j = i
  · subst hj; simp [Heap.push]
  · simp [Heap.push, hj]

theorem Heap.mem_push {h : Heap} {i x j y : Nat} :
    y ∈ (h.push i x).bins j ↔ (j = i ∧ y = x) ∨ y ∈ h.bins j := by
  rw [Heap.push_bins]
  by_cases hj : j = i
  · subst hj; simp
  · simp [hj]

theorem Heap.erase_bins (h : Heap) (i x j : Nat) :
    (h.erase i x).bins j = if j = i then (h.bins i).erase x else h.bins j := by
  by_cases hj : j = i
  · subst hj; simp [Heap.erase]
  · simp [Heap.erase, hj]

/-- The arena: the prologue word before `heap_start = lo + 8`, the blocks, then the
epilogue as the last word before the break, which stays within 64-bit addresses. -/
structure Arena (s : State) (bs : List Blk) : Prop where
  start : s.heapStart = s.lo + 8
  brk : s.heapStart + span bs + 8 = s.brk
  brk_le : s.brk ≤ 2 ^ 64
  sizes : SizesOk bs
  prologue : loadWord s.mem (s.heapStart - 8) = pack 0 true true false

/-- The free lists of `h` are in memory, and their members are free blocks of the list's
size class. -/
structure Lists (s : State) (h : Heap) : Prop where
  heads : ∀ i < segListNum, s.segList i = (h.bins i).headD 0
  mini : MiniChain s.mem (h.bins 0) 0
  links : ∀ i, 0 < i → FreeChain s.mem 0 (h.bins i) 0
  members : ∀ i, ∀ x ∈ h.bins i, ∃ b, BlockAt s.heapStart h.blocks x b ∧ b.alloc = false ∧
    getListIndex b.size = i
  nodup : ∀ i, (h.bins i).Nodup

/-- Byte `y` lies outside every free block of `bs`. -/
def OutFree (a : Nat) (bs : List Blk) (y : Nat) : Prop :=
  ∀ z c, BlockAt a bs z c → c.alloc = false → y < z ∨ z + c.size ≤ y

/-- Two neighbours of the implicit list are not both free. -/
def NotBothFree (b c : Blk) : Prop := b.alloc = true ∨ c.alloc = true

structure HeapInv (s : State) (h : Heap) : Prop where
  arena : Arena s h.blocks
  walk : Tail s.mem s.heapStart (true, false) h.blocks
  lists : Lists s h
  listed : ∀ x b, BlockAt s.heapStart h.blocks x b → b.alloc = false →
    x ∈ h.bins (getListIndex b.size)
  coalesced : h.blocks.Chain' NotBothFree

/-- Bytes in the body of a free block: what the list operations may write. -/
def FreeBody (a : Nat) (bs : List Blk) (x : Nat) : Prop :=
  ∃ z c, BlockAt a bs z c ∧ c.alloc = false ∧ z + 8 ≤ x ∧ x < z + c.size

theorem OutFree.not_freeBody {a : Nat} {bs : List Blk} {y : Nat} (h : OutFree a bs y) :
    ¬ FreeBody a bs y := fun ⟨z, c, hz, hc, h₁, h₂⟩ => by
  rcases h z c hz hc with h | h <;> omega

/-- Memory agrees on every word the walk of `bs` from `a` reads. -/
def WalkAgree (a : Nat) (bs : List Blk) (m m' : Mem) : Prop :=
  ∀ y, TailWords a bs y → loadWord m' y = loadWord m y

/-! ## Arena -/

theorem Arena.fit {s : State} {bs : List Blk} (h : Arena s bs) :
    s.heapStart + span bs + 8 ≤ 2 ^ 64 := h.brk ▸ h.brk_le

theorem Arena.blk {s : State} {bs : List Blk} (h : Arena s bs) {x : Nat} {c : Blk}
    (hx : BlockAt s.heapStart bs x c) :
    c.size % 16 = 0 ∧ 16 ≤ c.size ∧ 8 ≤ x ∧ x + c.size + 8 ≤ s.brk := by
  have hc := h.sizes c (blockAt_mem hx)
  have := blockAt_bound hx
  have := h.brk; have := h.start
  exact ⟨hc.1, by omega, by omega, by omega⟩

/-- The prologue lies before every block, so edits inside free blocks keep it. -/
theorem Arena.prologue_of_agree {s : State} {bs : List Blk} {m' : Mem} (har : Arena s bs)
    (hag : Agree (fun y => ¬ FreeBody s.heapStart bs y) s.mem m') :
    loadWord m' (s.heapStart - 8) = pack 0 true true false :=
  (loadWord_congr fun y _ h₂ => hag y fun ⟨z, _, hz, _, h₃, _⟩ => by
    have := blockAt_bound hz; omega).trans har.prologue

/-- The header of a block of the walk reads back as the block. -/
theorem Arena.read {s : State} {bs : List Blk} (h : Arena s bs) {x : Nat} {c : Blk}
    {f : Bool × Bool} (hx : BlockAt s.heapStart bs x c) (hw : BlkOk s.mem x f c) :
    getSize s x = c.size ∧ getAlloc s x = c.alloc ∧ getPrevAlloc s x = f.1 ∧
      getPrevMini s x = f.2 := by
  obtain ⟨h16, -, -, hlt⟩ := h.blk hx
  have hs : c.size < 2 ^ 64 := by have := h.brk_le; omega
  exact ⟨getSize_of_hdr hw.1 h16 hs, getAlloc_of_hdr hw.1 h16 hs, getPrevAlloc_of_hdr hw.1 h16 hs,
    getPrevMini_of_hdr hw.1 h16 hs⟩

/-! ## Lists -/

theorem getListIndex_size_eq {size : Nat} (h16 : size % 16 = 0) (hmin : 16 ≤ size) :
    (getListIndex size = 0 ↔ size = 16) := by
  rw [getListIndex_eq_zero_iff]; omega

section ListsFacts

variable {s : State} {h : Heap} (har : Arena s h.blocks) (hL : Lists s h)
include har hL

theorem Lists.member {i x : Nat} (hx : x ∈ h.bins i) :
    ∃ c, BlockAt s.heapStart h.blocks x c ∧ c.alloc = false ∧ getListIndex c.size = i ∧
      c.size % 16 = 0 ∧ 16 ≤ c.size ∧ 8 ≤ x ∧ x + c.size + 8 ≤ s.brk := by
  obtain ⟨c, hc, ha, hi⟩ := hL.members i x hx
  exact ⟨c, hc, ha, hi, har.blk hc⟩

/-- Members of the lists are distinct blocks, so at least 16 bytes apart. -/
theorem Lists.apart {i j x y : Nat} (hx : x ∈ h.bins i) (hy : y ∈ h.bins j) :
    (x = y ∧ i = j) ∨ x + 16 ≤ y ∨ y + 16 ≤ x := by
  obtain ⟨c, hc, -, rfl, -, hc16, -⟩ := hL.member har hx
  obtain ⟨d, hd, -, rfl, -, hd16, -⟩ := hL.member har hy
  rcases blockAt_apart har.sizes hc hd with ⟨rfl, rfl⟩ | h | h
  · exact .inl ⟨rfl, rfl⟩
  · exact .inr (.inl (by omega))
  · exact .inr (.inr (by omega))

theorem Lists.spread (i : Nat) : Spread (h.bins i) :=
  (hL.nodup i).pairwise_of_forall_ne fun x hx y hy hne => by
    rcases hL.apart har hx hy with h | h | h
    · exact absurd h.1 hne
    · exact .inl h
    · exact .inr h

theorem Lists.pos {i x : Nat} (hx : x ∈ h.bins i) : 0 < x := by
  obtain ⟨c, -, -, -, -, -, h8, -⟩ := hL.member har hx; omega

theorem Lists.lt {i x : Nat} (hx : x ∈ h.bins i) : x < 2 ^ 64 := by
  obtain ⟨c, -, -, -, -, -, -, hlt⟩ := hL.member har hx; have := har.brk_le; omega

theorem Lists.headD_lt (i : Nat) : (h.bins i).headD 0 < 2 ^ 64 := by
  cases hb : h.bins i with
  | nil => norm_num
  | cons x l => exact hL.lt har (by rw [hb]; exact List.mem_cons_self _ _)

theorem Lists.size_of_mem {i x : Nat} (hx : x ∈ h.bins i) :
    ∃ c, BlockAt s.heapStart h.blocks x c ∧ c.alloc = false ∧ getListIndex c.size = i ∧
      (i = 0 ∧ c.size = 16 ∨ 0 < i ∧ 32 ≤ c.size) := by
  obtain ⟨c, hc, ha, hi, h16, hmin, -⟩ := hL.member har hx
  refine ⟨c, hc, ha, hi, ?_⟩
  have := getListIndex_size_eq h16 hmin
  by_cases h0 : i = 0
  · exact .inl ⟨h0, this.1 (hi ▸ h0)⟩
  · exact .inr ⟨Nat.pos_of_ne_zero h0, by
      have : c.size ≠ 16 := fun e => h0 (hi ▸ this.2 e); omega⟩

/-- The addresses of the blocks. -/
private theorem length_bins_le (i : Nat) : (h.bins i).length ≤ s.brk - s.lo := by
  have hsub : h.bins i ⊆ (List.range (span h.blocks / 16)).map (fun k => s.heapStart + 16 * k) := by
    intro x hx
    obtain ⟨c, ⟨pre, post, hbs, rfl⟩, -, -, -, -, -⟩ := hL.member har hx
    have hok := har.sizes
    rw [hbs, sizesOk_append] at hok
    have hpre := span_mod hok.1
    have := (hok.2 c (List.mem_cons_self _ _)).2
    have hspan : span pre + 16 ≤ span h.blocks := by rw [hbs]; simp; omega
    exact List.mem_map.2 ⟨span pre / 16, List.mem_range.2 (by omega), by omega⟩
  have := (List.subperm_of_subset (hL.nodup i) hsub).length_le
  simp only [List.length_map, List.length_range] at this
  have := har.brk; have := har.start
  omega

theorem Lists.length_le (i : Nat) : (h.bins i).length ≤ s.brk - s.lo := length_bins_le har hL i

/-- Removing `x` from its list removes it from the lists and keeps every other member. -/
theorem Lists.mem_erase {i j x z : Nat} (hx : x ∈ h.bins i) :
    z ∈ (h.erase i x).bins j ↔ z ∈ h.bins j ∧ z ≠ x := by
  rw [Heap.erase_bins]
  split_ifs with hji
  · subst hji; exact (hL.nodup j).mem_erase_iff.trans and_comm
  · refine ⟨fun hz => ⟨hz, fun e => hji ?_⟩, fun hz => hz.1⟩
    subst e
    rcases hL.apart har hz hx with h | h | h
    · exact h.2
    · omega
    · omega

theorem Lists.not_mem_of_ge {i x : Nat} (hi : segListNum ≤ i) : x ∉ h.bins i := fun hx => by
  obtain ⟨c, -, -, rfl, -⟩ := hL.member har hx
  have := getListIndex_le c.size
  simp [segListNum] at hi; omega

end ListsFacts

/-- The header of a block of the walk, and what it reads back as. -/
theorem HeapInv.blkOk {s : State} {h : Heap} (hinv : HeapInv s h) {x : Nat} {c : Blk}
    (hx : BlockAt s.heapStart h.blocks x c) : ∃ f, BlkOk s.mem x f c := by
  obtain ⟨pre, post, hbs, rfl⟩ := hx
  have hw := hinv.walk
  rw [hbs, tail_append] at hw
  exact ⟨_, hw.2.1⟩

theorem HeapInv.read {s : State} {h : Heap} (hinv : HeapInv s h) {x : Nat} {c : Blk}
    (hx : BlockAt s.heapStart h.blocks x c) : getSize s x = c.size ∧ getAlloc s x = c.alloc := by
  obtain ⟨f, hw⟩ := hinv.blkOk hx
  obtain ⟨h₁, h₂, -⟩ := hinv.arena.read hx hw
  exact ⟨h₁, h₂⟩

/-- The header after a block of the walk, the epilogue included, records the block's alloc bit
and whether it is a mini block. -/
theorem HeapInv.next_flags {s : State} {h : Heap} (hinv : HeapInv s h) {x : Nat} {c : Blk}
    (hx : BlockAt s.heapStart h.blocks x c) :
    getPrevAlloc s (x + c.size) = c.alloc ∧ getPrevMini s (x + c.size) = (c.size == 16) := by
  obtain ⟨pre, post, hbs, rfl⟩ := hx
  have hw := hinv.walk
  rw [hbs, tail_append, tail_cons] at hw
  cases post with
  | nil =>
    have he : loadWord s.mem (s.heapStart + span pre + c.size) = pack 0 true c.alloc (c.size == 16) :=
      hw.2.2
    exact ⟨getPrevAlloc_of_hdr he (by norm_num) (by norm_num),
      getPrevMini_of_hdr he (by norm_num) (by norm_num)⟩
  | cons d post =>
    have hd : loadWord s.mem (s.heapStart + span pre + c.size) =
        pack d.size d.alloc c.alloc (c.size == 16) := hw.2.2.1.1
    have hd16 := (hinv.arena.sizes d (by rw [hbs]; simp)).1
    have hfit := hinv.arena.fit
    rw [hbs] at hfit
    simp only [span_append, span_cons] at hfit
    have hdlt : d.size < 2 ^ 64 := by omega
    exact ⟨getPrevAlloc_of_hdr hd hd16 hdlt, getPrevMini_of_hdr hd hd16 hdlt⟩

/-- The lists stay in memory when the link bytes of their members keep their values. -/
theorem Lists.frame {s s' : State} {h : Heap} (hL : Lists s h) (hseg : s'.segList = s.segList)
    (hst : s'.heapStart = s.heapStart)
    (hag : ∀ i, ∀ z ∈ h.bins i, ∀ y, z + 8 ≤ y → y < z + 8 + linkLen i → s'.mem y = s.mem y) :
    Lists s' h := by
  refine ⟨fun i hi => hseg ▸ hL.heads i hi, miniChain_frame (fun z hz => loadWord_congr
    fun y h₁ h₂ => hag 0 z hz y h₁ (by simp [linkLen]; omega)) hL.mini, fun i hi =>
    freeChain_frame (fun z hz => ⟨loadWord_congr fun y h₁ h₂ => hag i z hz y h₁
      (by simp [linkLen, hi.ne']; omega), loadWord_congr fun y h₁ h₂ => hag i z hz y (by omega)
      (by simp [linkLen, hi.ne']; omega)⟩) (hL.links i hi), fun i => hst ▸ hL.members i,
    hL.nodup⟩

/-- The lists over another implicit list in which their members keep their places. -/
theorem Lists.reblock {s : State} {h : Heap} {bs : List Blk} (hL : Lists s h)
    (hmv : ∀ i, ∀ z ∈ h.bins i, ∀ c, BlockAt s.heapStart h.blocks z c → BlockAt s.heapStart bs z c) :
    Lists s { h with blocks := bs } :=
  ⟨hL.heads, hL.mini, hL.links, fun i z hz => by
    obtain ⟨c, hc, ha, hi⟩ := hL.members i z hz
    exact ⟨c, hmv i z hz c hc, ha, hi⟩, hL.nodup⟩

/-- A member's link bytes lie in its block. -/
theorem Lists.link_in_block {s : State} {h : Heap} (har : Arena s h.blocks) (hL : Lists s h)
    {i z : Nat} (hz : z ∈ h.bins i) :
    ∃ c, BlockAt s.heapStart h.blocks z c ∧ c.alloc = false ∧ z + 8 + linkLen i ≤ z + c.size := by
  obtain ⟨c, hc, ha, -, hcls⟩ := hL.size_of_mem har hz
  refine ⟨c, hc, ha, ?_⟩
  rcases hcls with ⟨h0, h16⟩ | ⟨h0, h32⟩
  · simp [linkLen, h0]; omega
  · simp [linkLen, h0.ne']; omega

/-! ## Frames of the list operations -/

/-- The link bytes of a free block of the walk avoid every word the walk reads. -/
theorem walkAgree_of_offLinks {a : Nat} {bs : List Blk} {k : Nat} {zs : List Nat} {m m' : Mem}
    (hok : SizesOk bs)
    (hzs : ∀ z ∈ zs, ∃ c, BlockAt a bs z c ∧ c.alloc = false ∧
      (k = 8 ∧ c.size = 16 ∨ k = 16 ∧ 32 ≤ c.size))
    (hag : Agree (OffLinks k zs) m m') : WalkAgree a bs m m' := by
  intro y hy
  refine loadWord_congr fun b h₁ h₂ => hag b fun z hz => ?_
  obtain ⟨c, hc, ha, hk⟩ := hzs z hz
  have hsz := hok c (blockAt_mem hc)
  rcases hk with ⟨rfl, h16⟩ | ⟨rfl, h32⟩
  · have := tailWords_disjoint_body hok hc (le_refl (z + 8)) (by omega) (by omega) hy
    omega
  · have h1 := tailWords_disjoint_body hok hc (le_refl (z + 8)) (by omega) (fun _ _ => by omega) hy
    have h2 := tailWords_disjoint_body hok hc (show z + 8 ≤ z + 16 by omega) (by omega)
      (fun _ _ => by omega) hy
    omega

theorem agree_freeBody_of_offLinks {a : Nat} {bs : List Blk} {k : Nat} {zs : List Nat} {m m' : Mem}
    (hzs : ∀ z ∈ zs, ∃ c, BlockAt a bs z c ∧ c.alloc = false ∧ 8 + k ≤ c.size)
    (hag : Agree (OffLinks k zs) m m') : Agree (fun x => ¬ FreeBody a bs x) m m' :=
  hag.mono fun x hx z hz => by
    obtain ⟨c, hc, ha, hk⟩ := hzs z hz
    by_contra hin
    exact hx ⟨z, c, hc, ha, by omega, by omega⟩

theorem tail_of_walkAgree {m m' : Mem} {a : Nat} {f : Bool × Bool} {bs : List Blk}
    (hag : WalkAgree a bs m m') (h : Tail m a f bs) : Tail m' a f bs :=
  tail_frame hag h

/-- A block's header is a word of the walk. -/
theorem tailWords_of_blockAt {a : Nat} {bs : List Blk} {x : Nat} {c : Blk}
    (h : BlockAt a bs x c) : TailWords a bs x := by
  obtain ⟨pre, post, rfl, rfl⟩ := h
  exact .inl (hdrFtr_append.2 (.inr (Or.inl rfl)))

theorem tailWords_of_tail {a : Nat} {pre post : List Blk} {y : Nat}
    (hy : TailWords (a + span pre) post y) : TailWords a (pre ++ post) y := by
  rcases hy with hy | rfl
  · exact .inl (hdrFtr_append.2 (.inr hy))
  · exact .inr (by simp [Nat.add_assoc])

/-! ## Pushing and removing list members -/

/-- The lists after list `i` became `l`, written in memory `m'`, with the other lists'
links kept. -/
theorem lists_update {s : State} {h : Heap} {i : Nat} {l : List Nat} {m' : Mem} (hL : Lists s h)
    (hmini : i = 0 → MiniChain m' l 0) (hfree : 0 < i → FreeChain m' 0 l 0)
    (hothers : (i ≠ 0 → MiniChain m' (h.bins 0) 0) ∧
      ∀ j, 0 < j → j ≠ i → FreeChain m' 0 (h.bins j) 0)
    (hmem : ∀ x ∈ l, ∃ b, BlockAt s.heapStart h.blocks x b ∧ b.alloc = false ∧
      getListIndex b.size = i)
    (hnd : l.Nodup) :
    Lists { s with mem := m', segList := Function.update s.segList i (l.headD 0) }
      { h with bins := Function.update h.bins i l } := by
  refine ⟨fun j hj => ?_, ?_, fun j hj => ?_, fun j => ?_, fun j => ?_⟩
  · by_cases hji : j = i
    · subst hji; simp
    · simp [Function.update_noteq hji, hL.heads j hj]
  · by_cases hi : i = 0
    · subst hi; simpa using hmini rfl
    · simpa [Function.update_noteq (Ne.symm hi)] using hothers.1 hi
  · by_cases hji : j = i
    · subst hji; simpa using hfree hj
    · simpa [Function.update_noteq hji] using hothers.2 j hj hji
  · by_cases hji : j = i
    · subst hji; simpa using hmem
    · simpa [Function.update_noteq hji] using hL.members j
  · by_cases hji : j = i
    · subst hji; simpa using hnd
    · simpa [Function.update_noteq hji] using hL.nodup j

/-- The frames of a list operation that writes link bytes of free blocks only. -/
theorem frames_of_offLinks {s : State} {bs : List Blk} (hok : SizesOk bs) {i : Nat} {zs : List Nat}
    {m' : Mem}
    (hzc : ∀ z ∈ zs, ∃ d, BlockAt s.heapStart bs z d ∧ d.alloc = false ∧
      (linkLen i = 8 ∧ d.size = 16 ∨ linkLen i = 16 ∧ 32 ≤ d.size))
    (hag : Agree (OffLinks (linkLen i) zs) s.mem m') :
    WalkAgree s.heapStart bs s.mem m' ∧
      Agree (fun y => ¬ FreeBody s.heapStart bs y) s.mem m' :=
  ⟨walkAgree_of_offLinks hok hzc hag, agree_freeBody_of_offLinks (fun z hz => by
    obtain ⟨d, hd, ha, hk⟩ := hzc z hz
    exact ⟨d, hd, ha, by omega⟩) hag⟩

section Dispatch

variable {s : State} {h : Heap} (har : Arena s h.blocks) (hL : Lists s h)
include har hL

/-- Writes to link bytes of nodes of list `i` keep the other lists. -/
private theorem lists_frame_others {i k : Nat} {zs : List Nat} {m' : Mem}
    (hk : k ≤ 16) (hzs : ∀ z ∈ zs, z ∈ h.bins i)
    (hag : Agree (OffLinks k zs) s.mem m') :
    (i ≠ 0 → MiniChain m' (h.bins 0) 0) ∧
      (∀ j, 0 < j → j ≠ i → FreeChain m' 0 (h.bins j) 0) := by
  have hsep : ∀ j, j ≠ i → ∀ y ∈ h.bins j, ∀ z ∈ zs, y + 16 ≤ z ∨ z + 16 ≤ y := by
    intro j hji y hy z hz
    rcases hL.apart har hy (hzs z hz) with ⟨-, rfl⟩ | h' | h'
    · exact absurd rfl hji
    · exact .inl h'
    · exact .inr h'
  exact ⟨fun hi => miniChain_agree hag hk (hsep 0 (Ne.symm hi)) hL.mini,
    fun j hj hji => freeChain_agree hag hk (hsep j hji) (hL.links j hj)⟩

private theorem member_class {i z : Nat} (hz : z ∈ h.bins i) :
    ∃ d, BlockAt s.heapStart h.blocks z d ∧ d.alloc = false ∧
      (linkLen i = 8 ∧ d.size = 16 ∨ linkLen i = 16 ∧ 32 ≤ d.size) := by
  obtain ⟨d, hd, ha, -, hcls⟩ := hL.size_of_mem har hz
  refine ⟨d, hd, ha, ?_⟩
  rcases hcls with ⟨h0, h16⟩ | ⟨h0, h32⟩
  · exact .inl ⟨by simp [linkLen, h0], h16⟩
  · exact .inr ⟨by simp [linkLen, h0.ne'], h32⟩

/-- `insert_normal_or_mini` pushes the free block `x` on the list of its size class. -/
theorem insertNormalOrMini_spec {x : Nat} {c : Blk} (hx : BlockAt s.heapStart h.blocks x c)
    (hc : c.alloc = false) (hsz : getSize s x = c.size) (hnot : ∀ i, x ∉ h.bins i) :
    ∃ m', insertNormalOrMini s x =
        { s with mem := m', segList := Function.update s.segList (getListIndex c.size) x } ∧
      Lists { s with mem := m', segList := Function.update s.segList (getListIndex c.size) x }
        (h.push (getListIndex c.size) x) ∧
      WalkAgree s.heapStart h.blocks s.mem m' ∧
      Agree (fun y => ¬ FreeBody s.heapStart h.blocks y) s.mem m' := by
  obtain ⟨h16, hmin, h8, hend⟩ := har.blk hx
  have hcls := getListIndex_size_eq h16 hmin
  generalize hi : getListIndex c.size = i at hcls ⊢
  have hx0 : x ≠ 0 := by omega
  have hxlt : x < 2 ^ 64 := by have := har.brk_le; omega
  have hsp : Spread (x :: h.bins i) := spread_cons.2 ⟨fun y hy => by
    obtain ⟨d, hd, -, -, -, -, -⟩ := hL.member har hy
    rcases blockAt_apart har.sizes hx hd with ⟨rfl, -⟩ | h' | h'
    · exact absurd hy (hnot i)
    · omega
    · have := (har.blk hd).2.1; omega, hL.spread har i⟩
  have hi15 : i < segListNum := by have := getListIndex_le c.size; simp [segListNum]; omega
  have hxc : ∃ d, BlockAt s.heapStart h.blocks x d ∧ d.alloc = false ∧
      (linkLen i = 8 ∧ d.size = 16 ∨ linkLen i = 16 ∧ 32 ≤ d.size) := by
    refine ⟨c, hx, hc, ?_⟩
    by_cases h0 : i = 0
    · exact .inl ⟨by simp [linkLen, h0], hcls.1 h0⟩
    · exact .inr ⟨by simp [linkLen, h0], by have := mt hcls.2 h0; omega⟩
  have hzc : ∀ z ∈ x :: (h.bins i).take 1, ∃ d, BlockAt s.heapStart h.blocks z d ∧
      d.alloc = false ∧ (linkLen i = 8 ∧ d.size = 16 ∨ linkLen i = 16 ∧ 32 ≤ d.size) := by
    intro z hz
    rcases List.mem_cons.1 hz with rfl | hz
    · exact hxc
    · exact member_class har hL (List.mem_of_mem_take hz)
  -- the other lists: `x` is apart from their members, the old head is a member of list `i`
  have hothers : ∀ m', Agree (OffLinks (linkLen i) (x :: (h.bins i).take 1)) s.mem m' →
      (i ≠ 0 → MiniChain m' (h.bins 0) 0) ∧ (∀ j, 0 < j → j ≠ i → FreeChain m' 0 (h.bins j) 0) := by
    intro m' hag
    have hk : linkLen i ≤ 16 := by unfold linkLen; split_ifs <;> omega
    have hsep : ∀ j, j ≠ i → ∀ y ∈ h.bins j, ∀ z ∈ x :: (h.bins i).take 1,
        y + 16 ≤ z ∨ z + 16 ≤ y := by
      intro j hji y hy z hz
      rcases List.mem_cons.1 hz with rfl | hz
      · obtain ⟨d, hd, -, -, -, -, -⟩ := hL.member har hy
        rcases blockAt_apart har.sizes hx hd with ⟨rfl, -⟩ | h' | h'
        · exact absurd hy (hnot j)
        · omega
        · have := (har.blk hd).2.1; omega
      · rcases hL.apart har hy (List.mem_of_mem_take hz) with ⟨-, rfl⟩ | h' | h'
        · exact absurd rfl hji
        · exact .inl h'
        · exact .inr h'
    exact ⟨fun hi => miniChain_agree hag hk (hsep 0 (Ne.symm hi)) hL.mini,
      fun j hj hji => freeChain_agree hag hk (hsep j hji) (hL.links j hj)⟩
  have hmem : ∀ y ∈ x :: h.bins i, ∃ b, BlockAt s.heapStart h.blocks y b ∧ b.alloc = false ∧
      getListIndex b.size = i := by
    intro y hy
    rcases List.mem_cons.1 hy with rfl | hy
    · exact ⟨c, hx, hc, hi⟩
    · exact hL.members i y hy
  have hnd : (x :: h.bins i).Nodup := List.nodup_cons.2 ⟨hnot i, hL.nodup i⟩
  by_cases h0 : i = 0
  · subst h0
    obtain ⟨m', heq, hch, hag⟩ := insertToMiniFreeList_spec (s := s) hx0
      (hL.heads 0 (by decide)) hL.mini hsp (hL.headD_lt har 0)
    have hag' : Agree (OffLinks (linkLen 0) (x :: (h.bins 0).take 1)) s.mem m' :=
      hag.mono fun b hb z hz => by
        rw [List.mem_singleton] at hz; subst hz; exact hb z (List.mem_cons_self _ _)
    refine ⟨m', by rw [insertNormalOrMini, if_pos (by rw [hsz, hcls.1 rfl]; rfl), heq], ?_,
      frames_of_offLinks har.sizes hzc hag'⟩
    exact lists_update hL (fun _ => hch) (fun h' => absurd h' (lt_irrefl 0)) (hothers m' hag')
      hmem hnd
  · obtain ⟨m', heq, hch, hag⟩ := insertToFreeList_spec (s := s) (i := i) hx0 (by rw [hsz, hi])
      (hL.heads i hi15) (hL.links i (Nat.pos_of_ne_zero h0)) hsp (fun h' => by
        have := hL.pos har h'; omega) (fun y hy => by
        rcases List.mem_cons.1 hy with rfl | hy
        · exact hxlt
        · exact hL.lt har hy)
    have hag' : Agree (OffLinks (linkLen i) (x :: (h.bins i).take 1)) s.mem m' := by
      simpa [linkLen, h0] using hag
    refine ⟨m', by rw [insertNormalOrMini, if_neg (by rw [hsz]; exact fun e => h0 (hcls.2 e)),
      heq], ?_, frames_of_offLinks har.sizes hzc hag'⟩
    exact lists_update hL (fun h' => absurd h' h0) (fun _ => hch) (hothers m' hag') hmem hnd

/-- `delete_normal_or_mini` removes the listed free block `x` from its list; on the mini
list the walk that looks for its predecessor ends within its fuel. -/
theorem deleteNormalOrMini_spec {x : Nat} {c : Blk} (hx : BlockAt s.heapStart h.blocks x c)
    (hsz : getSize s x = c.size) (hxi : x ∈ h.bins (getListIndex c.size)) :
    ∃ m', deleteNormalOrMini s x = some
        { s with mem := m', segList := Function.update s.segList (getListIndex c.size)
                                 (((h.bins (getListIndex c.size)).erase x).headD 0) } ∧
      Lists { s with mem := m', segList := Function.update s.segList (getListIndex c.size)
                                  (((h.bins (getListIndex c.size)).erase x).headD 0) }
        (h.erase (getListIndex c.size) x) ∧
      WalkAgree s.heapStart h.blocks s.mem m' ∧
      Agree (fun y => ¬ FreeBody s.heapStart h.blocks y) s.mem m' := by
  obtain ⟨h16, hmin, h8, hend⟩ := har.blk hx
  have hcls := getListIndex_size_eq h16 hmin
  generalize hi : getListIndex c.size = i at hcls hxi ⊢
  have hi15 : i < segListNum := by have := getListIndex_le c.size; simp [segListNum]; omega
  obtain ⟨pre, post, hbins⟩ := List.append_of_mem hxi
  have hsp := hL.spread har i
  rw [hbins] at hsp
  have hxpre : x ∉ pre := fun h' =>
    (List.nodup_cons.1 (List.nodup_middle.1 hsp.nodup)).1 (List.mem_append_left _ h')
  have herase : (h.bins i).erase x = pre ++ post := by
    rw [hbins, List.erase_append_right _ hxpre, List.erase_cons_head]
  have hin : ∀ y ∈ pre ++ x :: post, y ∈ h.bins i := fun y hy => hbins ▸ hy
  have htouch : ∀ z ∈ pre.getLast?.toList ++ post.take 1, z ∈ h.bins i := by
    intro z hz
    apply hin
    rcases List.mem_append.1 hz with hz | hz
    · exact List.mem_append_left _ (List.mem_of_mem_getLast? (Option.mem_toList.1 hz))
    · exact List.mem_append_right _ (List.mem_cons_of_mem _ (List.mem_of_mem_take hz))
  have hzc := fun z hz => member_class har hL (htouch z hz)
  have hk : linkLen i ≤ 16 := by unfold linkLen; split_ifs <;> omega
  have hmem : ∀ y ∈ pre ++ post, ∃ b, BlockAt s.heapStart h.blocks y b ∧ b.alloc = false ∧
      getListIndex b.size = i := fun y hy => hL.members i y (by
    rw [← herase] at hy; exact List.mem_of_mem_erase hy)
  have hnd : (pre ++ post).Nodup := herase ▸ (hL.nodup i).erase x
  have hx0 : x ≠ 0 := by omega
  have hpos : ∀ y ∈ pre ++ x :: post, 0 < y := fun y hy => hL.pos har (hin y hy)
  unfold Heap.erase
  rw [herase]
  by_cases h0 : i = 0
  · subst h0
    have hpost : post.headD 0 < 2 ^ 64 := by
      cases post with
      | nil => norm_num
      | cons n t => exact hL.lt har (hin n (by simp))
    obtain ⟨m', heq, hch, hag⟩ := deleteFromMiniFreeList_spec (s := s) hx0
      (by rw [← hbins]; exact hL.heads 0 (by decide)) (hbins ▸ hL.mini) hsp
      (fun h' => by have := hpos 0 (List.mem_append_left _ h'); omega) hpost
    have hag' : Agree (OffLinks (linkLen 0) (pre.getLast?.toList ++ post.take 1)) s.mem m' :=
      hag.mono fun b hb z hz => hb z (List.mem_append_left _ hz)
    refine ⟨m', by rw [deleteNormalOrMini, if_pos (by rw [hsz, hcls.1 rfl]; rfl), heq], ?_,
      frames_of_offLinks har.sizes hzc hag'⟩
    exact lists_update hL (fun _ => hch) (fun h' => absurd h' (lt_irrefl 0))
      (lists_frame_others har hL hk htouch hag') hmem hnd
  · obtain ⟨m', heq, hch, hag⟩ := deleteFromFreeList_spec (s := s) (i := i) hx0 (by rw [hsz, hi])
      (by rw [← hbins]; exact hL.heads i hi15) (hbins ▸ hL.links i (Nat.pos_of_ne_zero h0)) hsp
      (fun h' => by have := hpos 0 h'; omega) (fun y hy => hL.lt har (hin y hy))
    have hag' : Agree (OffLinks (linkLen i) (pre.getLast?.toList ++ post.take 1)) s.mem m' := by
      simpa [linkLen, h0] using hag
    refine ⟨m', by rw [deleteNormalOrMini, if_neg (by rw [hsz]; exact fun e => h0 (hcls.2 e)),
      heq], ?_, frames_of_offLinks har.sizes hzc hag'⟩
    exact lists_update hL (fun h' => absurd h' h0) (fun _ => hch)
      (lists_frame_others har hL hk htouch hag') hmem hnd

/-- `delete_normal_or_mini` keeps the arena: it writes link bytes of free blocks only. -/
theorem deleteNormalOrMini_arena {x : Nat} {c : Blk} (hx : BlockAt s.heapStart h.blocks x c)
    (hsz : getSize s x = c.size) (hxi : x ∈ h.bins (getListIndex c.size)) :
    ∃ s₁, deleteNormalOrMini s x = some s₁ ∧ Arena s₁ (h.erase (getListIndex c.size) x).blocks ∧
      Lists s₁ (h.erase (getListIndex c.size) x) ∧ WalkAgree s.heapStart h.blocks s.mem s₁.mem ∧
      Agree (fun y => ¬ FreeBody s.heapStart h.blocks y) s.mem s₁.mem ∧
      s₁.lo = s.lo ∧ s₁.brk = s.brk ∧ s₁.heapStart = s.heapStart := by
  obtain ⟨m', heq, hL', hwa, hfb⟩ := deleteNormalOrMini_spec har hL hx hsz hxi
  exact ⟨_, heq, ⟨har.start, har.brk, har.brk_le, har.sizes, har.prologue_of_agree hfb⟩, hL', hwa,
    hfb, rfl, rfl, rfl⟩

end Dispatch

/-- With every list head `NULL` the lists are empty, so every block of the walk is allocated. -/
theorem HeapInv.alloc_of_heads {s : State} {h : Heap} (hinv : HeapInv s h)
    (h0 : ∀ i < segListNum, s.segList i = 0) {x : Nat} {c : Blk}
    (hx : BlockAt s.heapStart h.blocks x c) : c.alloc = true := by
  by_contra hc
  have hmem := hinv.listed x c hx (by simpa using hc)
  have hi : getListIndex c.size < segListNum := by
    have := getListIndex_le c.size; unfold segListNum; omega
  have hhead := (hinv.lists.heads _ hi).symm.trans (h0 _ hi)
  cases hb : h.bins (getListIndex c.size) with
  | nil => rw [hb] at hmem; exact List.not_mem_nil _ hmem
  | cons z l =>
    have hz := hinv.lists.pos hinv.arena (hb ▸ List.mem_cons_self z l)
    rw [hb] at hhead
    exact absurd hhead hz.ne'

/-- Lists that avoid the block at `x` survive rewriting that block as another of the same
size and the header after it. -/
theorem Lists.rewrite {s s₂ : State} {h : Heap} {pre post : List Blk} {F F' : Blk}
    (har : Arena s h.blocks) (hL : Lists s h) (hbs : h.blocks = pre ++ F :: post)
    (hsz : F'.size = F.size) (hnot : ∀ i, s.heapStart + span pre ∉ h.bins i)
    (hag : Agree (fun y => y < s.heapStart + span pre ∨ s.heapStart + span pre + F.size + 8 ≤ y)
      s.mem s₂.mem)
    (hsl : s₂.segList = s.segList) (hst : s₂.heapStart = s.heapStart) :
    Lists s₂ { h with blocks := pre ++ F' :: post } := by
  refine (hL.frame hsl hst fun i z hz y h₁ h₂ => ?_).reblock fun i z hz c hc => ?_
  · obtain ⟨c, hc, -, hlk⟩ := hL.link_in_block har hz
    have hFat : BlockAt s.heapStart h.blocks (s.heapStart + span pre) F := by
      rw [hbs]; exact blockAt_here _ _ _ _
    rcases blockAt_apart har.sizes hc hFat with ⟨rfl, -⟩ | hb | hb
    · exact absurd hz (hnot i)
    · exact hag y (.inl (by omega))
    · exact hag y (.inr (by omega))
  · rw [hst] at hc ⊢
    rw [hbs] at hc
    exact blockAt_replace hc (fun e => hnot i (e ▸ hz)) hsz

end SegMalloc.Invariant
