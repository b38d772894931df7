import SegMalloc.ClientStores

/-! `find_fit` and `malloc` over the abstract heap. The search follows `free.next` words in
memory and reads sizes from headers; on the heap invariant those words spell the abstract lists
and those headers hold the sizes of the walk, so the search is the same scan over the lists of
the abstract heap (`findFitAbs`). What `malloc` returns is then a function of the abstract
heap, `heap_start`, the break and the arena's answer (`mallocAbs`): the bytes a client stored
into its blocks never change which block it gets next. -/
namespace SegMalloc.AbstractFit
open Memory Header Block FindFit Api Layout Links Invariant CoalesceSpec FreeSpec FitSpec AllocSpec
  MallocSpec ApiSpec Run Reachable Client ClientStores

/-- The size of the block at `x` of the walk `bs` from `a`, and `0` off the walk. -/
def sizeAt (a : Nat) : List Blk → Nat → Nat
  | [], _ => 0
  | b :: bs, x => if x = a then b.size else sizeAt (a + b.size) bs x

theorem sizeAt_of_blockAt {a x : Nat} {bs : List Blk} {c : Blk} (hok : SizesOk bs)
    (hx : BlockAt a bs x c) : sizeAt a bs x = c.size := by
  induction bs generalizing a with
  | nil => exact absurd hx not_blockAt_nil
  | cons b bs ih =>
    rcases blockAt_cons.1 hx with ⟨rfl, rfl⟩ | hx'
    · simp [sizeAt]
    · -- a later block starts after this one
      have := (blockAt_bound hx').1
      have := (hok b (List.mem_cons_self _ _)).2
      rw [sizeAt, if_neg (by omega), ih (fun c hc => hok c (List.mem_cons_of_mem _ hc)) hx']

/-- The `while` loop of `find_fit` over the abstract list `l`, with the block sizes `sz`. -/
def scanList (sz : Nat → Nat) (asize : Nat) : Nat → List Nat → Nat → Nat → Scan
  | rem, [], best, minDiff => .next best minDiff rem
  | rem, z :: l, best, minDiff =>
    let fits := decide (sz z ≥ asize)
    let diff := sz z - asize
    let best' := if fits && decide (diff < minDiff) then z else best
    let minDiff' := if fits && decide (diff < minDiff) then diff else minDiff
    if fits && decide (minDiff' ≤ closeEnough) then .found best'
    else
      match rem with
      | 0 => .next best' minDiff' (searchLimit + 1)
      | rem + 1 => scanList sz asize rem l best' minDiff'
termination_by structural _ l => l

/-- The `for` loop of `find_fit` over the abstract lists `bins i` for `i` in `is`. -/
def scanLists (sz : Nat → Nat) (bins : Nat → List Nat) (asize : Nat) :
    List Nat → Nat → Nat → Nat → Nat
  | [], best, _, _ => best
  | i :: is, best, minDiff, rem =>
    match scanList sz asize rem (bins i) best minDiff with
    | .found block => block
    | .next best minDiff rem => scanLists sz bins asize is best minDiff rem

/-- `find_fit` over the abstract lists `bins` with the block sizes `sz`. -/
def findFitAbs (sz : Nat → Nat) (bins : Nat → List Nat) (asize : Nat) : Nat :=
  let seg := getListIndex asize
  if seg = 0 ∧ (bins 0).headD 0 ≠ 0 then (bins 0).headD 0
  else scanLists sz bins asize (List.range' seg (segListNum - seg)) 0 (2 ^ 64 - 1)
    (searchLimit + 1)

/-- What `malloc(n)` returns, from the abstract heap `h` with `heap_start` at `start` and the
break at `brk`: the block the abstract search finds; else, when the arena grants the
extension, the block it leaves, merged with a free last block; else `NULL`. -/
def mallocAbs (ok : Nat → Bool) (h : Heap) (start brk n : Nat) : Nat :=
  if n = 0 then 0
  else
    let block := findFitAbs (sizeAt start h.blocks) h.bins (adjustSize n)
    if block ≠ 0 then block + 8
    else if ok (Header.max (adjustSize n) chunksize) = true ∧
        brk + Header.max (adjustSize n) chunksize ≤ 2 ^ 64 then
      start + span (absorbPrev h.blocks).1 + 8
    else 0

section Refine

variable {s : State} {h : Heap} {asize : Nat}

/-- Along a `free.next` chain whose blocks have the sizes `sz`, the loop over memory is the
loop over the list. -/
theorem scanBucket_abs {sz : Nat → Nat} : ∀ (l : List Nat) (p rem best minDiff : Nat),
    FreeChain s.mem p l 0 → (∀ z ∈ l, z ≠ 0 ∧ getSize s z = sz z) →
    scanBucket s asize rem (l.headD 0) best minDiff = scanList sz asize rem l best minDiff
  | [], _, rem, best, minDiff, _, _ => by rw [List.headD_nil, scanBucket, if_pos rfl]; rfl
  | z :: l, p, rem, best, minDiff, hch, hz => by
    obtain ⟨hz0, hsz⟩ := hz z (List.mem_cons_self _ _)
    rw [List.headD_cons, scanBucket, if_neg hz0, hsz]
    cases rem with
    | zero => rfl
    | succ rem =>
      rw [scanList.eq_3, ← scanBucket_abs l z rem _ _ hch.2.2 fun y hy => hz y
        (List.mem_cons_of_mem _ hy), ← hch.2.1]
      rfl

/-- The blocks on the lists are on the walk, with the sizes their headers hold. -/
theorem bins_sizes (hinv : HeapInv s h) (i : Nat) :
    ∀ z ∈ h.bins i, z ≠ 0 ∧ getSize s z = sizeAt s.heapStart h.blocks z := fun z hz => by
  obtain ⟨c, hc, -, -⟩ := hinv.lists.members i z hz
  have := (blockAt_bound hc).1
  have := hinv.arena.start
  exact ⟨by omega, (hinv.read hc).1.trans (sizeAt_of_blockAt hinv.arena.sizes hc).symm⟩

theorem scanBuckets_abs (hinv : HeapInv s h) : ∀ (is : List Nat) (best minDiff rem : Nat),
    (∀ i ∈ is, i < segListNum ∧ (i = 0 → h.bins 0 = [])) →
    scanBuckets s asize is best minDiff rem =
      scanLists (sizeAt s.heapStart h.blocks) h.bins asize is best minDiff rem
  | [], _, _, _, _ => rfl
  | i :: is, best, minDiff, rem, his => by
    obtain ⟨hi15, hi0⟩ := his i (List.mem_cons_self i is)
    -- the list `i` is a `free.next` chain, or the empty mini list
    have hch : FreeChain s.mem 0 (h.bins i) 0 := by
      rcases Nat.eq_zero_or_pos i with rfl | hpos
      · rw [hi0 rfl]; trivial
      · exact hinv.lists.links i hpos
    rw [scanBuckets, scanLists, hinv.lists.heads i hi15,
      scanBucket_abs _ 0 rem best minDiff hch (bins_sizes hinv i)]
    rcases scanList (sizeAt s.heapStart h.blocks) asize rem (h.bins i) best minDiff with
      b | ⟨b, m, r⟩
    · rfl
    · exact scanBuckets_abs hinv is b m r fun j hj => his j (List.mem_cons_of_mem _ hj)

/-- On the heap invariant, `find_fit` is the abstract search over the lists of the heap. -/
theorem findFit_abs (hinv : HeapInv s h) (asize : Nat) :
    findFit s asize = findFitAbs (sizeAt s.heapStart h.blocks) h.bins asize := by
  have hhead := hinv.lists.heads 0 (by decide)
  unfold findFit findFitAbs
  dsimp only
  rw [hhead]
  split_ifs with hc
  · rfl
  · exact scanBuckets_abs hinv _ _ _ _ (findFit_range hinv (by rwa [hhead]))

/-- On the heap invariant with the heap initialized, `malloc(n)` returns what the abstract
heap determines. -/
theorem malloc_abs (ok : Nat → Bool) (hinv : HeapInv s h) (hst : s.heapStart ≠ 0)
    {n : Nat} (hn : n ≤ 2 ^ 64 - 24) :
    ∃ r, malloc ok s n = some r ∧ r.2 = mallocAbs ok h s.heapStart s.brk n := by
  by_cases hn0 : n = 0
  · exact ⟨_, by rw [hn0]; exact malloc_zero ok hst, by rw [mallocAbs, if_pos hn0]⟩
  obtain ⟨h16, hmin, hlt, -⟩ := adjustSize_bounds hn
  obtain ⟨m16, mmin, mlt, -⟩ := max_chunksize h16 hlt
  have hff := findFit_abs hinv (adjustSize n)
  obtain ⟨r, hr, ⟨rfl, hf, hno⟩ | ⟨hr0, S, h', hA, hfit, hext⟩⟩ :=
    malloc_spec ok hinv hst hn0 h16 hmin hlt
  · -- no block, and the arena refuses
    refine ⟨_, hr, ?_⟩
    rw [mallocAbs, if_neg hn0]
    dsimp only
    rw [← hff, hf, if_neg (not_not.2 rfl), if_neg hno]
  refine ⟨r, hr, ?_⟩
  obtain ⟨pre, post, -, hp⟩ := hA.blocks
  rw [mallocAbs, if_neg hn0]
  dsimp only
  rw [← hff]
  by_cases hf : findFit s (adjustSize n) = 0
  · -- the block the extension leaves
    obtain ⟨s₁, he, -⟩ := hext hf
    clear hext hfit
    rw [if_neg (not_not.2 hf)]
    rcases extendHeap_spec ok hinv m16 mmin mlt with ⟨-, he'⟩ | ⟨hok, hle, s₂, h₂, he', -⟩
    · have h0 : r.2 - 8 = 0 := (Prod.mk.inj (Option.some.inj (he.symm.trans he'))).2
      omega
    · have hx := (Prod.mk.inj (Option.some.inj (he.symm.trans he'))).2
      rw [if_pos ⟨hok, hle⟩]
      omega
  · rw [if_pos hf, (hfit hf).1]

end Refine

/-! ## The pointer a call returns -/

section Pointers

variable {ok : Nat → Bool} {s s' : State} {h : Heap}

/-- The pointer `realloc(p, n)` returns: `NULL` when `n = 0`, else the pointer of its `malloc(n)`. -/
theorem realloc_ptr {p n : Nat} {r : State × Nat} (hr : realloc ok s p n = some r) :
    n = 0 ∧ r.2 = 0 ∨ n ≠ 0 ∧ ∃ r₁, malloc ok s n = some r₁ ∧ r.2 = r₁.2 := by
  by_cases hn : n = 0
  · rw [hn, realloc_zero] at hr
    obtain ⟨s', -, h₂⟩ := Option.bind_eq_some.1 hr
    exact .inl ⟨hn, by rw [← Option.some.inj h₂]⟩
  refine .inr ⟨hn, ?_⟩
  by_cases hp : p = 0
  · rw [hp, realloc_null ok s hn] at hr
    exact ⟨r, hr, rfl⟩
  rw [realloc_eq ok s hp hn] at hr
  obtain ⟨r₁, h₁, h₂⟩ := Option.bind_eq_some.1 hr
  refine ⟨r₁, h₁, ?_⟩
  by_cases h0 : r₁.2 = 0
  · rw [if_pos h0] at h₂
    rw [← Option.some.inj h₂, h0]
  · rw [if_neg h0] at h₂
    obtain ⟨s₃, -, h₄⟩ := Option.bind_eq_some.1 h₂
    rw [← Option.some.inj h₄]

/-- The pointer `calloc(e, n)` returns: `NULL` when `e = 0` or the product overflows, else the
pointer of its `malloc(e * n)`. -/
theorem calloc_ptr {e n : Nat} {r : State × Nat} (hr : calloc ok s e n = some r) :
    (e = 0 ∨ usize (e * n) / e ≠ n) ∧ r.2 = 0 ∨
      (e ≠ 0 ∧ usize (e * n) / e = n) ∧ ∃ r₁, malloc ok s (usize (e * n)) = some r₁ ∧ r.2 = r₁.2 := by
  unfold calloc at hr
  simp only [pure, bind, Option.some_bind] at hr
  split_ifs at hr with h0 hov
  · exact .inl ⟨.inl h0, by rw [← Option.some.inj hr]⟩
  · exact .inl ⟨.inr hov, by rw [← Option.some.inj hr]⟩
  obtain ⟨r₁, h₁, h₂⟩ := Option.bind_eq_some.1 hr
  refine .inr ⟨⟨h0, not_not.1 hov⟩, r₁, h₁, ?_⟩
  split_ifs at h₂ with hb <;> rw [← Option.some.inj h₂]
  exact hb.symm

variable (hinv : HeapInv s h) (hinv' : HeapInv s' h) (hst : s.heapStart ≠ 0)
  (hstart : s'.heapStart = s.heapStart) (hbrk : s'.brk = s.brk)
include hinv hinv' hst hstart hbrk

/-- Two states with the same abstract heap, `heap_start` and break get the same pointer from
`malloc`. -/
theorem malloc_ptr_eq {n : Nat} (hn : n ≤ 2 ^ 64 - 24) {r r' : State × Nat}
    (h₁ : malloc ok s n = some r) (h₂ : malloc ok s' n = some r') : r.2 = r'.2 := by
  obtain ⟨r₁, e₁, hr₁⟩ := malloc_abs ok hinv hst hn
  obtain ⟨r₂, e₂, hr₂⟩ := malloc_abs ok hinv' (hstart ▸ hst) hn
  rw [Option.some.inj (h₁.symm.trans e₁), Option.some.inj (h₂.symm.trans e₂), hr₁, hr₂, hstart,
    hbrk]

theorem realloc_ptr_eq {p n : Nat} (hn : n ≤ 2 ^ 64 - 24) {r r' : State × Nat}
    (h₁ : realloc ok s p n = some r) (h₂ : realloc ok s' p n = some r') : r.2 = r'.2 := by
  rcases realloc_ptr h₁ with ⟨hn0, e₁⟩ | ⟨hn0, r₁, m₁, e₁⟩
  · rcases realloc_ptr h₂ with ⟨-, e₂⟩ | ⟨hn0', -⟩
    · rw [e₁, e₂]
    · exact absurd hn0 hn0'
  · rcases realloc_ptr h₂ with ⟨hn0', -⟩ | ⟨-, r₂, m₂, e₂⟩
    · exact absurd hn0' hn0
    · rw [e₁, e₂, malloc_ptr_eq hinv hinv' hst hstart hbrk hn m₁ m₂]

theorem calloc_ptr_eq {e n : Nat} (hn : e * n ≤ 2 ^ 64 - 24) {r r' : State × Nat}
    (h₁ : calloc ok s e n = some r) (h₂ : calloc ok s' e n = some r') : r.2 = r'.2 := by
  have hu : usize (e * n) ≤ 2 ^ 64 - 24 := by rw [usize_of_lt (by omega)]; exact hn
  rcases calloc_ptr h₁ with ⟨hc, e₁⟩ | ⟨hc, r₁, m₁, e₁⟩
  · rcases calloc_ptr h₂ with ⟨-, e₂⟩ | ⟨hc', -⟩
    · rw [e₁, e₂]
    · exact (hc.elim hc'.1 (· hc'.2)).elim
  · rcases calloc_ptr h₂ with ⟨hc', -⟩ | ⟨-, r₂, m₂, e₂⟩
    · exact (hc'.elim hc.1 (· hc.2)).elim
    · rw [e₁, e₂, malloc_ptr_eq hinv hinv' hst hstart hbrk hu m₁ m₂]

end Pointers

/-- In every system reached by runs of calls keeping the contract and of stores of the client
into its blocks, with the heap initialized, `find_fit` is the abstract search over the lists of
the abstract heap, with the sizes of its walk. -/
theorem findFit_refines {σ : Sys} (hR : ReachStores InitOnce σ) (hst : σ.st.heapStart ≠ 0) :
    ∃ h, HeapInv σ.st h ∧ ∀ asize,
      findFit σ.st asize = findFitAbs (sizeAt σ.st.heapStart h.blocks) h.bins asize := by
  rcases hR.sysInv with ⟨hU, -⟩ | ⟨-, h, hinv, -⟩
  · exact absurd hU.1 hst
  exact ⟨h, hinv, findFit_abs hinv⟩

theorem findFit_refines_storedSys : ReachStores InitOnce storedSys ∧ storedSys.st.heapStart ≠ 0 ∧
    ∃ h, HeapInv storedSys.st h ∧ ∀ asize, findFit storedSys.st asize =
      findFitAbs (sizeAt storedSys.st.heapStart h.blocks) h.bins asize :=
  ⟨reachStores_storedSys, by decide, findFit_refines reachStores_storedSys (by decide)⟩

/-- In every system reached by runs of calls keeping the contract and of stores of the client
into its blocks, with the heap initialized, `malloc(n)` returns, for every size the contract
allows and every answer of the arena, the pointer the abstract heap, `heap_start` and the break
determine. -/
theorem malloc_refines {σ : Sys} (hR : ReachStores InitOnce σ) (hst : σ.st.heapStart ≠ 0) :
    ∃ h, HeapInv σ.st h ∧ ∀ (ok : Nat → Bool) (n : Nat), n ≤ 2 ^ 64 - 24 →
      ∃ r, malloc ok σ.st n = some r ∧ r.2 = mallocAbs ok h σ.st.heapStart σ.st.brk n := by
  rcases hR.sysInv with ⟨hU, -⟩ | ⟨-, h, hinv, -⟩
  · exact absurd hU.1 hst
  exact ⟨h, hinv, fun ok _ hn => malloc_abs ok hinv hst hn⟩

theorem malloc_refines_storedSys : ReachStores InitOnce storedSys ∧ storedSys.st.heapStart ≠ 0 ∧
    ∃ h, HeapInv storedSys.st h ∧ ∀ (ok : Nat → Bool) (n : Nat), n ≤ 2 ^ 64 - 24 →
      ∃ r, malloc ok storedSys.st n = some r ∧
        r.2 = mallocAbs ok h storedSys.st.heapStart storedSys.st.brk n :=
  ⟨reachStores_storedSys, by decide, malloc_refines reachStores_storedSys (by decide)⟩

/-- In every system reached by runs of calls keeping the contract and of stores of the client
into its blocks, whatever the client stores next into the blocks it holds, every call it may
make returns, with every answer of the arena, the same pointer as without those stores: the
client holds the same pointers afterwards. -/
theorem call_stores_live {σ : Sys} {m : Mem} (hR : ReachStores InitOnce σ) (hm : Stores σ m)
    (ok : Nat → Bool) {c : Call} (hc : InitOnce σ c) :
    ∃ σ₁ σ₂, σ.call ok c = some σ₁ ∧ Sys.call ok ⟨{ σ.st with mem := m }, σ.live⟩ c = some σ₂ ∧
      σ₁.live = σ₂.live := by
  have hI := hR.sysInv
  obtain ⟨σ₁, h₁, -⟩ := hI.call hc ok
  obtain ⟨σ₂, h₂, -⟩ := (sysInv_store hI hm).call hc ok
  refine ⟨σ₁, σ₂, h₁, h₂, ?_⟩
  rcases hI with ⟨-, h0⟩ | ⟨hst, h, hinv, hl⟩
  · -- no block is held, so there is no store
    have hmem : m = σ.st.mem :=
      funext fun y => hm y fun b hb => by simp [view, h0] at hb
    subst hmem
    rw [Option.some.inj (h₁.symm.trans h₂)]
  have hinv' := heapInv_store hinv hl hm
  cases c with
  | init =>
    obtain ⟨r, -, rfl⟩ := Option.map_eq_some'.1 h₁
    obtain ⟨r', -, rfl⟩ := Option.map_eq_some'.1 h₂
    rfl
  | malloc n =>
    obtain ⟨r, e, rfl⟩ := Option.map_eq_some'.1 h₁
    obtain ⟨r', e', rfl⟩ := Option.map_eq_some'.1 h₂
    show addLive r.2 σ.live = addLive r'.2 σ.live
    rw [malloc_ptr_eq hinv hinv' hst rfl rfl hc.1 e e']
  | free p =>
    obtain ⟨r, -, rfl⟩ := Option.map_eq_some'.1 h₁
    obtain ⟨r', -, rfl⟩ := Option.map_eq_some'.1 h₂
    rfl
  | realloc p n =>
    obtain ⟨r, e, rfl⟩ := Option.map_eq_some'.1 h₁
    obtain ⟨r', e', rfl⟩ := Option.map_eq_some'.1 h₂
    simp only [realloc_ptr_eq hinv hinv' hst rfl rfl hc.1.2 e e']
  | calloc a n =>
    obtain ⟨r, e, rfl⟩ := Option.map_eq_some'.1 h₁
    obtain ⟨r', e', rfl⟩ := Option.map_eq_some'.1 h₂
    show addLive r.2 σ.live = addLive r'.2 σ.live
    rw [calloc_ptr_eq hinv hinv' hst rfl rfl hc.1 e e']

theorem call_stores_live_mallocSys : ReachStores InitOnce mallocSys ∧
    Stores mallocSys (memset mallocSys.st.mem 16 7 8) ∧ InitOnce mallocSys (.malloc 1) ∧
    ∃ σ₁ σ₂, mallocSys.call (fun _ => true) (.malloc 1) = some σ₁ ∧
      Sys.call (fun _ => true) storedSys (.malloc 1) = some σ₂ ∧ σ₁.live = σ₂.live :=
  have hc : InitOnce mallocSys (.malloc 1) := ⟨show 1 ≤ 2 ^ 64 - 24 by decide, Call.noConfusion⟩
  ⟨reachStores_of_reach reach_mallocSys, storedSys_stores, hc,
    call_stores_live (reachStores_of_reach reach_mallocSys) storedSys_stores _ hc⟩

end SegMalloc.AbstractFit
