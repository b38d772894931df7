import SegMalloc.Growth

/-! The allocator writes only inside its arena. The bytes below the arena's base and from the
break on are not the allocator's: every store of `mm.c` is to a header, a footer or a link word
of a block of the heap, to the prologue and epilogue words, or, in `realloc` and `calloc`, to the
payload of the block just allocated, all between the base and the break. So every call of the
interface, on every reachable system and with every answer of the arena, leaves each byte
outside the arena it ends with as it was. -/
namespace SegMalloc.Footprint
open Memory Header Block FreeList Coalesce Api Layout Invariant CoalesceSpec FreeSpec FitSpec
  AllocSpec Table MallocSpec ApiSpec Run Reachable Growth

/-- `s'` keeps every byte of `s` below the arena's base and from its own break on. -/
def Confined (s s' : State) : Prop := ∀ y, y < s.lo ∨ s'.brk ≤ y → s'.mem y = s.mem y

section Relations

variable {s s₁ s₂ s₃ : State}

theorem Confined.refl (s : State) : Confined s s := fun _ _ => rfl

/-- Two confined steps make a confined step when the first keeps the base and the second does
not lower the break. -/
theorem Confined.trans (h₁ : Confined s₁ s₂) (h₂ : Confined s₂ s₃) (hlo : s₂.lo = s₁.lo)
    (hbrk : s₂.brk ≤ s₃.brk) : Confined s₁ s₃ := fun y hy =>
  (h₂ y (by omega)).trans (h₁ y (by omega))

/-- A byte outside the blocks is outside every free block. -/
theorem outFree_of_outside {a y : Nat} {bs : List Blk} (hy : y < a ∨ a + span bs ≤ y) :
    OutFree a bs y := fun z c hz _ => by have := blockAt_bound hz; omega

/-- A store into `[q, q + k)` within the payload of an allocated block is confined. -/
theorem confined_setMem {h : Heap} {q k T : Nat} {m : Mem} (hinv : HeapInv s h)
    (hq : (q - 8, T) ∈ allocs s.heapStart h.blocks) (h8 : 8 ≤ q) (hk : q + k ≤ q - 8 + T)
    (hm : ∀ y, y < q ∨ q + k ≤ y → m y = s.mem y) : Confined s { s with mem := m } :=
  fun y hy => hm y (by
    obtain ⟨hstart, hbrk, -⟩ := hinv.arena
    have := blockAt_bound (mem_allocs.1 hq)
    simp only at hy this
    omega)

end Relations

section Heaps

variable {s : State} {h : Heap}

/-- The neighbours of a free block of the walk are allocated, or the prologue and the
epilogue. -/
theorem free_neighbours {pre post : List Blk} {F : Blk} (hinv : HeapInv s h)
    (hbs : h.blocks = pre ++ F :: post) (hF : F.alloc = false) :
    (∀ c ∈ pre.getLast?, c.alloc = true) ∧ ∀ c ∈ post.head?, c.alloc = true := by
  have hc := hbs ▸ hinv.coalesced
  rw [List.chain'_append] at hc
  refine ⟨fun c hc' => (hc.2.2 c hc' F rfl).resolve_right ?_,
    fun c hc' => ((List.chain'_cons'.1 hc.2.1).1 c hc').resolve_left ?_⟩ <;> simp [hF]

/-- The bytes the next block brings to a merge are among those after the freed block. -/
theorem absorbNext_le (post : List Blk) : (absorbNext post).1 ≤ span post := by
  rcases post with _ | ⟨n, post⟩
  · exact le_rfl
  · simp only [absorbNext]; split_ifs <;> simp

end Heaps

section Alloc

variable {s : State} {h : Heap} {pre post : List Blk} {F : Blk} {asize : Nat}

/-- The allocation path of `malloc` from the listed free block `F`, with the blocks it leaves:
`F`'s first `asize` bytes allocated, and the rest, if any, free after them. It stores only into
`F` and the header after it. -/
theorem allocBlock_blocks (hinv : HeapInv s h) (hbs : h.blocks = pre ++ F :: post)
    (hF : F.alloc = false) (hxi : s.heapStart + span pre ∈ h.bins (getListIndex F.size))
    (hle : asize ≤ F.size) (h16 : asize % 16 = 0) (hmin : 16 ≤ asize) :
    ∃ s' h', ((deleteNormalOrMini s (s.heapStart + span pre)).bind fun s₁ =>
        some (splitBlock (markAlloc s₁ (s.heapStart + span pre)) (s.heapStart + span pre) asize,
          headerToPayload (s.heapStart + span pre))) = some (s', s.heapStart + span pre + 8) ∧
      HeapInv s' h' ∧ h'.blocks = pre ++ ⟨asize, true⟩ ::
        (if F.size = asize then post else ⟨F.size - asize, false⟩ :: post) ∧
      s'.heapStart = s.heapStart ∧ s'.brk = s.brk ∧ s'.lo = s.lo ∧ Confined s s' := by
  obtain ⟨s₃, hs₃, hinv₃, hlo₃, hbrk₃, hst₃, hag₃⟩ := markAlloc_spec hinv hbs hF hxi
  obtain ⟨s₁, hdel, rfl⟩ := Option.map_eq_some'.1 hs₃
  obtain ⟨h', hinv', hbl', hlo', hbrk', hst', hag'⟩ :=
    splitBlock_spec hinv₃ rfl (free_neighbours hinv hbs hF).2 hle h16 hmin
  rw [hst₃] at hinv' hlo' hbrk' hst' hag'
  have hbrk := hbrk'.trans hbrk₃
  refine ⟨_, h', by rw [hdel, Option.some_bind]; rfl, hinv', hbl', hst', hbrk, hlo'.trans hlo₃,
    fun y hy => ?_⟩
  -- both stores lie in `F` and the header after it, inside the arena
  obtain ⟨hstart, hbrk₀, -⟩ := hinv.arena
  have hsp : span h.blocks = span pre + (F.size + span post) := by
    rw [hbs, span_append, span_cons]
  rw [hbrk] at hy
  refine (hag' y ⟨outFree_of_outside ?_, ?_⟩).trans (hag₃ y ⟨outFree_of_outside ?_, ?_⟩)
  · simp only [span_append, span_cons]; omega
  all_goals omega

/-- The allocation path from a listed free block of at least `asize` bytes is confined, and
keeps the base and the break. -/
theorem allocPath_confined {x : Nat} (hinv : HeapInv s h) (hx : BlockAt s.heapStart h.blocks x F)
    (hF : F.alloc = false) (hle : asize ≤ F.size) (h16 : asize % 16 = 0) (hmin : 16 ≤ asize)
    {r : State × Nat} (hr : ((deleteNormalOrMini s x).bind fun s₁ =>
      some (splitBlock (markAlloc s₁ x) x asize, headerToPayload x)) = some r) :
    Confined s r.1 ∧ r.1.lo = s.lo ∧ r.1.brk = s.brk := by
  have hxi := hinv.listed _ _ hx hF
  obtain ⟨pre, post, hbs, rfl⟩ := hx
  obtain ⟨s', h', hcode, -, -, -, hbrk, hlo, hc⟩ := allocBlock_blocks hinv hbs hF hxi hle h16 hmin
  rw [hcode] at hr
  cases hr
  exact ⟨hc, hlo, hbrk⟩

end Alloc

section Calls

variable {ok : Nat → Bool} {s : State} {h : Heap}

/-- `extend_heap(size)` is confined, and a block it returns is a free block of the heap it
leaves, of at least `size` bytes. -/
theorem extendHeap_confined {size : Nat} (hinv : HeapInv s h) (h16 : size % 16 = 0)
    (hmin : 16 ≤ size) (hlt : size + 15 < 2 ^ 64) {r : State × Nat}
    (hr : extendHeap ok s size = some r) :
    Confined s r.1 ∧ (r.2 ≠ 0 → ∃ h₁ F, HeapInv r.1 h₁ ∧ BlockAt r.1.heapStart h₁.blocks r.2 F ∧
      F.alloc = false ∧ size ≤ F.size) := by
  rcases extendHeap_spec ok hinv h16 hmin hlt with ⟨-, hext⟩ | ⟨-, -, s', h', hext, hc⟩ <;>
    rw [hext] at hr <;> cases hr
  · exact ⟨Confined.refl s, fun h0 => absurd rfl h0⟩
  refine ⟨fun y hy => hc.frame y ⟨outFree_of_outside ?_, ?_⟩, fun _ => ⟨h', _, hc.inv,
    by rw [hc.blocks, hc.heapStart]; exact blockAt_here _ _ _ _, rfl,
    by simp only [mergedSize, absorbNext]; omega⟩⟩ <;>
  · -- the new bytes and the merge lie below the new break
    obtain ⟨hstart, hbrk₀, -⟩ := hinv.arena
    have hbrk := hc.brk
    simp only [absorbNext, span_append, span_cons, span_nil] at hy hbrk ⊢
    omega

/-- On an initialized heap, `malloc(n)` is confined. -/
theorem malloc_confined (hinv : HeapInv s h) (hst : s.heapStart ≠ 0) {n : Nat}
    (hn : n ≤ 2 ^ 64 - 24) {r : State × Nat} (hr : malloc ok s n = some r) : Confined s r.1 := by
  by_cases hn0 : n = 0
  · rw [hn0, malloc_zero ok hst] at hr
    cases hr
    exact Confined.refl s
  obtain ⟨h16, hmin, hlt, -⟩ := adjustSize_bounds hn
  rw [malloc_eq ok s n hst hn0] at hr
  obtain ⟨r₁, h₁, h₂⟩ := Option.bind_eq_some.1 hr
  -- the search or the extension leaves a free block of at least `a(n)` bytes
  obtain ⟨hc₁, hlo₁, hblk⟩ : Confined s r₁.1 ∧ r₁.1.lo = s.lo ∧ (r₁.2 ≠ 0 → ∃ h₁ F,
      HeapInv r₁.1 h₁ ∧ BlockAt r₁.1.heapStart h₁.blocks r₁.2 F ∧ F.alloc = false ∧
        adjustSize n ≤ F.size) := by
    split_ifs at h₁ with hf
    · obtain ⟨hm16, hmmin, hmlt, hmle⟩ := max_chunksize h16 hlt
      obtain ⟨hc, hblk⟩ := extendHeap_confined hinv hm16 hmmin hmlt h₁
      exact ⟨hc, (extends_extendHeap h₁).1, fun h0 =>
        let ⟨h₁, F, hi, hx, hF, hle⟩ := hblk h0; ⟨h₁, F, hi, hx, hF, hmle.trans hle⟩⟩
    · cases h₁
      obtain ⟨i, c, hzi, hz, hle⟩ := (findFit_spec hinv hmin h16).1.resolve_left hf
      obtain ⟨F, hz', hF, -⟩ := hinv.lists.members i _ hzi
      obtain rfl := blockAt_unique hinv.arena.sizes hz' hz
      exact ⟨Confined.refl s, rfl, fun _ => ⟨h, F, hinv, hz, hF, hle⟩⟩
  split_ifs at h₂ with h0
  · cases h₂
    exact hc₁
  · obtain ⟨h₁, F, hinv₁, hx, hF, hle⟩ := hblk h0
    obtain ⟨hc₂, -, hbrk₂⟩ := allocPath_confined hinv₁ hx hF hle h16 hmin h₂
    exact hc₁.trans hc₂ hlo₁ hbrk₂.ge

/-- A block `malloc(n)` returns on an initialized heap is an allocated block of `a(n)` bytes of
the heap it leaves, which keeps every allocated block before it. -/
theorem malloc_block (hinv : HeapInv s h) (hst : s.heapStart ≠ 0) {n : Nat}
    (hn : n ≤ 2 ^ 64 - 24) {r : State × Nat} (hr : malloc ok s n = some r) (hr0 : r.2 ≠ 0) :
    ∃ h₁, HeapInv r.1 h₁ ∧ (r.2 - 8, adjustSize n) ∈ allocs r.1.heapStart h₁.blocks ∧
      8 ≤ r.2 ∧ n + 8 ≤ adjustSize n ∧ r.1.lo = s.lo ∧
      ∀ e ∈ allocs s.heapStart h.blocks, e ∈ allocs r.1.heapStart h₁.blocks := by
  have hn0 : n ≠ 0 := by
    rintro rfl
    rw [malloc_zero ok hst] at hr
    cases hr
    exact hr0 rfl
  obtain ⟨h16, hmin, hlt, hfit⟩ := adjustSize_bounds hn
  obtain ⟨r', hr', ⟨rfl, -⟩ | ⟨-, T, h₁, hA, -⟩⟩ := malloc_spec ok hinv hst hn0 h16 hmin hlt <;>
    obtain rfl := Option.some.inj (hr.symm.trans hr')
  · exact absurd rfl hr0
  obtain ⟨pre, post, -, hq8⟩ := hA.blocks
  rw [hA.heapStart]
  exact ⟨h₁, hA.inv, hA.table.symm.subset (List.mem_cons_self _ _), by omega, hfit, hA.lo,
    fun e he => hA.table.symm.subset (List.mem_cons_of_mem _ he)⟩

/-- `free` of an allocated block is confined, and keeps the base and the break. -/
theorem free_confined_of_mem {p S : Nat} (hinv : HeapInv s h)
    (hS : (p - 8, S) ∈ allocs s.heapStart h.blocks) (h8 : 8 ≤ p) {s' : State}
    (hf : free s p = some s') : Confined s s' ∧ s'.lo = s.lo ∧ s'.brk = s.brk := by
  obtain ⟨pre, post, hbs, hx⟩ := mem_allocs.1 hS
  obtain ⟨s'', h', hfree, hc⟩ := free_spec hinv hbs rfl
  rw [← hx, Nat.sub_add_cancel h8, hf] at hfree
  cases hfree
  refine ⟨fun y hy => hc.frame y ⟨outFree_of_outside ?_, ?_⟩, hc.lo, hc.brk⟩ <;>
  · -- the freed block and the merge lie in the arena
    obtain ⟨hstart, hbrk₀, -⟩ := hinv.arena
    have hsp : span h.blocks = span pre + (S + span post) := by
      rw [hbs, span_append, span_cons]
    have hab := absorbNext_le post
    have hbrk := hc.brk
    simp only [span_append, span_cons] at hy ⊢
    omega

/-- On a live heap, `free(p)` of `NULL` or of a live pointer is confined, and keeps the base
and the break. -/
theorem free_confined {live : List Nat} {p : Nat} (hL : Live s live) (hp : p = 0 ∨ p ∈ live)
    {s' : State} (hf : free s p = some s') : Confined s s' ∧ s'.lo = s.lo ∧ s'.brk = s.brk := by
  rcases hp with rfl | hp
  · rw [free_zero] at hf
    cases hf
    exact ⟨Confined.refl s, rfl, rfl⟩
  obtain ⟨-, h, hinv, hl⟩ := hL
  obtain ⟨S, hS, h8⟩ := mem_payloads.1 (hl.subset hp)
  exact free_confined_of_mem hinv hS h8 hf

/-- On a live heap, `realloc(p, n)` of `NULL` or of a live pointer is confined: the copy goes
into the payload of the new block. -/
theorem realloc_confined {live : List Nat} {p n : Nat} (hL : Live s live)
    (hp : p = 0 ∨ p ∈ live) (hn : n ≤ 2 ^ 64 - 24) {r : State × Nat}
    (hr : realloc ok s p n = some r) : Confined s r.1 := by
  by_cases hn0 : n = 0
  · rw [hn0, realloc_zero] at hr
    obtain ⟨s', h₁, h₂⟩ := Option.bind_eq_some.1 hr
    cases h₂
    exact (free_confined hL hp h₁).1
  obtain ⟨hst, h, hinv, hl⟩ := hL
  rcases hp with rfl | hp
  · rw [realloc_null ok s hn0] at hr
    exact malloc_confined hinv hst hn hr
  obtain ⟨S, hS, h8⟩ := mem_payloads.1 (hl.subset hp)
  rw [realloc_eq ok s (by omega) hn0] at hr
  obtain ⟨r₁, h₁, h₂⟩ := Option.bind_eq_some.1 hr
  have hc₁ := malloc_confined hinv hst hn h₁
  by_cases hq : r₁.2 = 0
  · rw [if_pos hq] at h₂
    cases h₂
    exact hc₁
  rw [if_neg hq] at h₂
  obtain ⟨s₃, h₃, h₄⟩ := Option.bind_eq_some.1 h₂
  cases h₄
  obtain ⟨h₁', hinv₁, hq₁, hq8, hfit, hlo₁, hkeep⟩ := malloc_block hinv hst hn h₁ hq
  -- the copy stays within the new payload, and `p`'s block is still allocated for the `free`
  set c := if n < getPayloadSize r₁.1 (payloadToHeader p) then n
    else getPayloadSize r₁.1 (payloadToHeader p) with hc
  have hcn : c ≤ n := by rw [hc]; split_ifs <;> omega
  have hc₂ : Confined r₁.1 { r₁.1 with mem := memcpy r₁.1.mem r₁.2 p c } :=
    confined_setMem hinv₁ hq₁ hq8 (k := c) (by omega) fun y hy => by
      simp only [memcpy]; rw [if_neg (by omega)]
  obtain ⟨hc₃, -, hbrk₃⟩ := free_confined_of_mem (memcpy_inv hinv₁ hq₁ hq8 p (k := c) (by omega))
    (hkeep _ hS) h8 h₃
  exact hc₁.trans (hc₂.trans hc₃ rfl hbrk₃.ge) hlo₁ hbrk₃.ge

/-- On an initialized heap, `calloc(e, n)` is confined: the zeroing goes into the payload of
the new block. -/
theorem calloc_confined (hinv : HeapInv s h) (hst : s.heapStart ≠ 0) {e n : Nat}
    (hen : e * n ≤ 2 ^ 64 - 24) {r : State × Nat} (hr : calloc ok s e n = some r) :
    Confined s r.1 := by
  by_cases he : e = 0
  · have : calloc ok s e n = some (s, 0) := by simp [calloc, he]
    rw [this] at hr
    cases hr
    exact Confined.refl s
  rw [calloc_eq ok s he (by omega)] at hr
  obtain ⟨r₁, h₁, h₂⟩ := Option.bind_eq_some.1 hr
  have hc₁ := malloc_confined hinv hst hen h₁
  split_ifs at h₂ with hq
  · cases h₂
    exact hc₁
  cases h₂
  obtain ⟨h₁', hinv₁, hq₁, hq8, hfit, hlo₁, -⟩ := malloc_block hinv hst hen h₁ hq
  have hc₂ : Confined r₁.1 { r₁.1 with mem := memset r₁.1.mem r₁.2 0 (e * n) } :=
    confined_setMem hinv₁ hq₁ hq8 (k := e * n) (by omega) fun y hy => by
      simp only [memset]; rw [if_neg (by omega)]
  exact hc₁.trans hc₂ hlo₁ le_rfl

end Calls

section Uninit

variable (ok : Nat → Bool) {s : State}

/-- `mm_init` on the uninitialized heap is confined: the prologue and epilogue words go into
the first bytes of the arena. -/
theorem mmInit_confined (hU : Uninit s) {r : State × Bool} (h : mmInit ok s = some r) :
    Confined s r.1 := by
  by_cases hok : ok 16 = true ∧ s.brk + 16 ≤ 2 ^ 64
  · obtain ⟨s₁, hcode, hinv₁, hlo₁, hbrk₁, -, hag₁⟩ := mmInit_prologue ok hU.2.1 hok
    rw [hcode] at h
    obtain ⟨r', hr', rfl⟩ := Option.map_eq_some'.1 h
    have hc₁ : Confined s s₁ := fun y hy => hag₁ y (by have := hU.2.1; omega)
    exact hc₁.trans (extendHeap_confined hinv₁ (by decide) (by decide) (by decide) hr').1 hlo₁
      (extends_extendHeap hr').grows.2.1
  · -- the arena refuses the words: only the list heads are cleared
    rw [mmInit] at h
    dsimp only at h
    rw [memSbrk, if_neg (show ¬ (ok (2 * wsize) = true ∧ s.brk + 2 * wsize ≤ 2 ^ 64) from hok)]
      at h
    obtain rfl := Option.some.inj h
    exact Confined.refl s

/-- `malloc(n)` on the uninitialized heap is confined. -/
theorem malloc_confined_uninit {n : Nat} (hU : Uninit s) (hn : n ≤ 2 ^ 64 - 24)
    {r : State × Nat} (hr : malloc ok s n = some r) : Confined s r.1 := by
  obtain ⟨s₁, b, hi, -, hL⟩ := mmInit_sys ok hU
  have hc₁ := mmInit_confined ok hU hi
  cases b
  · rw [malloc_uninit ok n hU.1 hi fun h => absurd h (by decide)] at hr
    obtain rfl := Option.some.inj hr
    exact hc₁
  · rw [malloc_uninit ok n hU.1 hi fun _ => (hL rfl).1] at hr
    obtain ⟨hst₁, h₁, hinv₁, -⟩ := hL rfl
    exact hc₁.trans (malloc_confined hinv₁ hst₁ hn hr) (mmInit_grows hi).1 (grows_malloc hr).2.1

/-- `calloc(e, n)` on the uninitialized heap is confined. -/
theorem calloc_confined_uninit {e n : Nat} (hU : Uninit s) (hen : e * n ≤ 2 ^ 64 - 24)
    {r : State × Nat} (hr : calloc ok s e n = some r) : Confined s r.1 := by
  by_cases he : e = 0
  · have : calloc ok s e n = some (s, 0) := by simp [calloc, he]
    rw [this] at hr
    cases hr
    exact Confined.refl s
  have hlt : e * n < 2 ^ 64 := by omega
  obtain ⟨s₁, b, hi, -, hL⟩ := mmInit_sys ok hU
  have hc₁ := mmInit_confined ok hU hi
  rw [calloc_eq ok s he hlt] at hr
  obtain ⟨r₁, h₁, h₂⟩ := Option.bind_eq_some.1 hr
  cases b
  · rw [malloc_uninit ok _ hU.1 hi fun h => absurd h (by decide)] at h₁
    obtain rfl := Option.some.inj h₁
    obtain rfl := Option.some.inj h₂
    exact hc₁
  · rw [malloc_uninit ok _ hU.1 hi fun _ => (hL rfl).1, if_pos rfl] at h₁
    have hc : calloc ok s₁ e n = some r := by rw [calloc_eq ok s₁ he hlt, h₁]; exact h₂
    obtain ⟨hst₁, h', hinv', -⟩ := hL rfl
    exact hc₁.trans (calloc_confined hinv' hst₁ hen hc) (mmInit_grows hi).1
      (calloc_of_malloc Grows.refl Grows.steady grows_malloc hc).2.1

end Uninit

/-- In every reachable system, every call the client may make, with every answer of the arena,
leaves every byte below the arena's base and from the break it ends with as it was: the
allocator stores only inside its arena. -/
theorem call_confined (ok : Nat → Bool) {σ σ' : Sys} {c : Call} (hR : Reach InitOnce σ)
    (hc : InitOnce σ c) (h : σ.call ok c = some σ') : Confined σ.st σ'.st := by
  obtain ⟨hC, hinit⟩ := hc
  rcases hR.sysInv with ⟨hU, h0⟩ | hL
  · -- the uninitialized heap: no pointer is held, so every pointer passed back is `NULL`
    cases c with
    | init =>
      obtain ⟨r, hr, rfl⟩ := Option.map_eq_some'.1 h
      exact mmInit_confined ok hU hr
    | malloc n =>
      obtain ⟨r, hr, rfl⟩ := Option.map_eq_some'.1 h
      exact malloc_confined_uninit ok hU hC hr
    | free p =>
      obtain ⟨r, hr, rfl⟩ := Option.map_eq_some'.1 h
      obtain rfl : p = 0 := hC.resolve_right (h0 ▸ List.not_mem_nil p)
      rw [free_zero] at hr
      cases hr
      exact Confined.refl _
    | realloc p n =>
      obtain ⟨r, hr, rfl⟩ := Option.map_eq_some'.1 h
      obtain rfl : p = 0 := hC.1.resolve_right (h0 ▸ List.not_mem_nil p)
      by_cases hn0 : n = 0
      · rw [hn0, realloc_zero, free_zero] at hr
        obtain rfl := Option.some.inj hr
        exact Confined.refl _
      · rw [realloc_null ok _ hn0] at hr
        exact malloc_confined_uninit ok hU hC.2 hr
    | calloc e n =>
      obtain ⟨r, hr, rfl⟩ := Option.map_eq_some'.1 h
      exact calloc_confined_uninit ok hU hC hr
  · obtain ⟨hst, h', hinv, -⟩ := id hL
    cases c with
    | init => exact absurd (hinit rfl) hst
    | malloc n =>
      obtain ⟨r, hr, rfl⟩ := Option.map_eq_some'.1 h
      exact malloc_confined hinv hst hC hr
    | free p =>
      obtain ⟨r, hr, rfl⟩ := Option.map_eq_some'.1 h
      exact (free_confined hL hC hr).1
    | realloc p n =>
      obtain ⟨r, hr, rfl⟩ := Option.map_eq_some'.1 h
      exact realloc_confined hL hC.1 hC.2 hr
    | calloc e n =>
      obtain ⟨r, hr, rfl⟩ := Option.map_eq_some'.1 h
      exact calloc_confined hinv hst hC hr

/-- `malloc(1)` after `mm_init`. -/
theorem call_confined_mallocSys : Reach InitOnce initSys ∧ InitOnce initSys (.malloc 1) ∧
    initSys.call (fun _ => true) (.malloc 1) = some mallocSys ∧
    Confined initSys.st mallocSys.st :=
  have hc : InitOnce initSys (.malloc 1) := ⟨show 1 ≤ 2 ^ 64 - 24 by decide, Call.noConfusion⟩
  ⟨reach_initSys, hc, mallocSys_call, call_confined _ reach_initSys hc mallocSys_call⟩

end SegMalloc.Footprint
