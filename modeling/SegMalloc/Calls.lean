import SegMalloc.Reachable

/-! What each call of the interface does in a reachable system: it keeps the blocks of the
pointers it is not passed, returns `NULL` only when the arena refuses to grow, and what it
returns or frees is laid out as the allocator's comments describe. -/
namespace SegMalloc.Calls
open Memory Header Block Coalesce FindFit Api Layout Invariant CoalesceSpec FreeSpec FitSpec
  AllocSpec Table MallocSpec ApiSpec Run Reachable

/-! ## The blocks of the other pointers -/

/-- Every call of a client keeping the contract in a reachable system keeps the block of every
held pointer it is not passed: the size and alloc bit of its header, and its payload. -/
theorem call_keeps (ok : Nat → Bool) {σ σ' : Sys} {c : Call} (hR : Reach InitOnce σ)
    (hc : InitOnce σ c) (h : σ.call ok c = some σ') : Keeps σ.st σ'.st σ.live c.ptr := by
  obtain ⟨σ'', hc', -, hK⟩ := hR.sysInv.call hc ok
  obtain rfl := Option.some.inj (h.symm.trans hc')
  exact hK

/-- After `mm_init`, `malloc(1)` and `malloc(1)`: the second block is the 16 bytes at 24, split
off the free block after the first. -/
def twoSys : Sys := ⟨((malloc (fun _ => true) mallocSys.st 1).getD (emptyState, 0)).1, [32, 16]⟩

theorem twoSys_call : mallocSys.call (fun _ => true) (.malloc 1) = some twoSys := rfl

/-- The second `malloc(1)` keeps the block of 16. -/
theorem call_keeps_twoSys : Reach InitOnce mallocSys ∧ InitOnce mallocSys (.malloc 1) ∧
    mallocSys.call (fun _ => true) (.malloc 1) = some twoSys ∧
    Keeps mallocSys.st twoSys.st mallocSys.live (Call.malloc 1).ptr :=
  have hc : InitOnce mallocSys (.malloc 1) := ⟨show 1 ≤ 2 ^ 64 - 24 by decide, Call.noConfusion⟩
  ⟨reach_mallocSys, hc, twoSys_call, call_keeps _ reach_mallocSys hc twoSys_call⟩

/-! ## `NULL` results -/

/-- Modelled from the spec: `malloc(n)` finds no block. No listed block fits `a(n)`, and the
arena refuses to grow by `max(a(n), CHUNKSIZE)` bytes. -/
def Refused (ok : Nat → Bool) (s : State) (n : Nat) : Prop :=
  findFit s (adjustSize n) = 0 ∧ ¬ (ok (Header.max (adjustSize n) chunksize) = true ∧
    s.brk + Header.max (adjustSize n) chunksize ≤ 2 ^ 64)

section Null

variable (ok : Nat → Bool) {s : State} {h : Heap} (hinv : HeapInv s h) (hst : s.heapStart ≠ 0)
include hinv hst

/-- On the heap invariant, `malloc(n)` returns `NULL` exactly when it finds no block, and then
leaves the state as it was. -/
theorem malloc_refused {n : Nat} (hn₁ : 1 ≤ n) (hn : n ≤ 2 ^ 64 - 24) :
    ∃ r, malloc ok s n = some r ∧ (r.2 = 0 ↔ Refused ok s n) ∧ (r.2 = 0 → r.1 = s) := by
  obtain ⟨h16, hmin, hlt, -⟩ := adjustSize_bounds hn
  obtain ⟨r, hr, ⟨rfl, hf, hno⟩ | ⟨hr0, S, h', hA, -, hext⟩⟩ :=
    malloc_spec ok hinv hst (show n ≠ 0 by omega) h16 hmin hlt
  · exact ⟨_, hr, iff_of_true rfl ⟨hf, hno⟩, fun _ => rfl⟩
  refine ⟨r, hr, iff_of_false hr0 fun ⟨hf, hno⟩ => ?_, fun h0 => absurd h0 hr0⟩
  -- a refused arena makes `extend_heap` return `NULL`, and `malloc` with it
  obtain ⟨s₁, he, -, -⟩ := hext hf
  obtain ⟨m16, mmin, mlt, -⟩ := max_chunksize h16 hlt
  rcases extendHeap_spec ok hinv m16 mmin mlt with ⟨-, he'⟩ | ⟨hok, hle, -⟩
  · obtain ⟨pre, post, -, hp⟩ := hA.blocks
    have : r.2 - 8 = 0 := (Prod.mk.inj (Option.some.inj (he.symm.trans he'))).2
    omega
  · exact hno ⟨hok, hle⟩

theorem calloc_refused {e m : Nat} (hem₁ : 1 ≤ e * m) (hem : e * m ≤ 2 ^ 64 - 24) :
    ∃ r, calloc ok s e m = some r ∧ (r.2 = 0 ↔ Refused ok s (e * m)) ∧ (r.2 = 0 → r.1 = s) := by
  obtain ⟨r, hr, hiff, hkeep⟩ := malloc_refused ok hinv hst hem₁ hem
  rw [calloc_eq ok s (by rintro rfl; simp at hem₁) (by omega), hr, Option.some_bind]
  by_cases h0 : r.2 = 0
  · exact ⟨(r.1, 0), by rw [if_pos h0], iff_of_true rfl (hiff.1 h0), fun _ => hkeep h0⟩
  · exact ⟨({ r.1 with mem := memset r.1.mem r.2 0 (e * m) }, r.2), by rw [if_neg h0], hiff,
      fun h' => absurd h' h0⟩

theorem realloc_refused {p S n : Nat} (hp : (p - 8, S) ∈ allocs s.heapStart h.blocks) (h8 : 8 ≤ p)
    (hn₁ : 1 ≤ n) (hn : n ≤ 2 ^ 64 - 24) :
    ∃ r, realloc ok s p n = some r ∧ (r.2 = 0 ↔ Refused ok s n) ∧ (r.2 = 0 → r.1 = s) := by
  obtain ⟨h16, hmin, hlt, hfit⟩ := adjustSize_bounds hn
  obtain ⟨⟨s₁, q⟩, hr, hiff, hkeep⟩ := malloc_refused ok hinv hst hn₁ hn
  have hcode := realloc_eq ok s (show p ≠ 0 by omega) (show n ≠ 0 by omega)
  by_cases hq : q = 0
  · refine ⟨(s₁, 0), ?_, iff_of_true rfl (hiff.1 hq), fun _ => hkeep hq⟩
    rw [hcode, hr, Option.some_bind, if_pos hq]
  -- a block: `realloc` copies the payload, frees `p` and returns the block
  obtain ⟨r', hr', ⟨rfl, -⟩ | ⟨-, T, h₁, hA, -⟩⟩ :=
    malloc_spec ok hinv hst (show n ≠ 0 by omega) h16 hmin hlt
  · exact absurd (Prod.mk.inj (Option.some.inj (hr.symm.trans hr'))).2 hq
  obtain rfl := Option.some.inj (hr'.symm.trans hr)
  obtain ⟨s', h', hre, -⟩ := realloc_spec hinv hp h8 (by omega) hr hq hA hfit
  exact ⟨(s', q), hre, iff_of_false hq (mt hiff.2 hq), fun h => absurd h hq⟩

end Null

/-- In every reachable system with the heap initialized, `malloc`, `calloc`, and `realloc` of a
held pointer return `NULL` exactly when no listed block fits and the arena refuses to grow, and
a `NULL` result leaves the system as it was: the state, and the pointers held. -/
theorem null_reach (ok : Nat → Bool) {σ : Sys} (hR : Reach InitOnce σ) (hst : σ.st.heapStart ≠ 0) :
    (∀ n, 1 ≤ n → n ≤ 2 ^ 64 - 24 → ∃ r, malloc ok σ.st n = some r ∧
      (r.2 = 0 ↔ Refused ok σ.st n) ∧ (r.2 = 0 → σ.call ok (.malloc n) = some σ)) ∧
    (∀ e m, 1 ≤ e * m → e * m ≤ 2 ^ 64 - 24 → ∃ r, calloc ok σ.st e m = some r ∧
      (r.2 = 0 ↔ Refused ok σ.st (e * m)) ∧ (r.2 = 0 → σ.call ok (.calloc e m) = some σ)) ∧
    ∀ p ∈ σ.live, ∀ n, 1 ≤ n → n ≤ 2 ^ 64 - 24 → ∃ r, realloc ok σ.st p n = some r ∧
      (r.2 = 0 ↔ Refused ok σ.st n) ∧ (r.2 = 0 → σ.call ok (.realloc p n) = some σ) := by
  obtain ⟨st, live⟩ := σ
  rcases hR.sysInv with ⟨hU, -⟩ | ⟨-, h, hinv, hl⟩
  · exact absurd hU.1 hst
  refine ⟨fun n hn₁ hn => ?_, fun e m hem₁ hem => ?_, fun p hp n hn₁ hn => ?_⟩
  · obtain ⟨r, hr, hiff, hkeep⟩ := malloc_refused ok hinv hst hn₁ hn
    exact ⟨r, hr, hiff, fun h0 => by simp [Sys.call, hr, h0, hkeep h0, addLive_zero]⟩
  · obtain ⟨r, hr, hiff, hkeep⟩ := calloc_refused ok hinv hst hem₁ hem
    exact ⟨r, hr, hiff, fun h0 => by simp [Sys.call, hr, h0, hkeep h0, addLive_zero]⟩
  · obtain ⟨S, hS, h8⟩ := mem_payloads.1 (hl.subset hp)
    obtain ⟨r, hr, hiff, hkeep⟩ := realloc_refused ok hinv hst hS h8 hn₁ hn
    exact ⟨r, hr, hiff, fun h0 => by simp [Sys.call, hr, h0, hkeep h0, show n ≠ 0 by omega]⟩

/-- After `mm_init` and `malloc(1)`, with every request granted. -/
theorem null_reach_mallocSys : Reach InitOnce mallocSys ∧ mallocSys.st.heapStart ≠ 0 ∧
    (∀ n, 1 ≤ n → n ≤ 2 ^ 64 - 24 → ∃ r, malloc (fun _ => true) mallocSys.st n = some r ∧
      (r.2 = 0 ↔ Refused (fun _ => true) mallocSys.st n) ∧
      (r.2 = 0 → mallocSys.call (fun _ => true) (.malloc n) = some mallocSys)) ∧
    (∀ e m, 1 ≤ e * m → e * m ≤ 2 ^ 64 - 24 → ∃ r, calloc (fun _ => true) mallocSys.st e m = some r ∧
      (r.2 = 0 ↔ Refused (fun _ => true) mallocSys.st (e * m)) ∧
      (r.2 = 0 → mallocSys.call (fun _ => true) (.calloc e m) = some mallocSys)) ∧
    ∀ p ∈ mallocSys.live, ∀ n, 1 ≤ n → n ≤ 2 ^ 64 - 24 →
      ∃ r, realloc (fun _ => true) mallocSys.st p n = some r ∧
        (r.2 = 0 ↔ Refused (fun _ => true) mallocSys.st n) ∧
        (r.2 = 0 → mallocSys.call (fun _ => true) (.realloc p n) = some mallocSys) :=
  ⟨reach_mallocSys, by decide, null_reach _ reach_mallocSys (by decide)⟩

/-! ## What `malloc` returns -/

/-- On the heap invariant, a block `malloc(n)` returns has exactly `a(n)` bytes; the block it
was cut from is the one `find_fit` chose or the one `extend_heap` returned, and any surplus after
it is a free block on the list of its size, recorded as such in the header after it. -/
theorem malloc_split (ok : Nat → Bool) {s : State} {h : Heap} {n : Nat} (hinv : HeapInv s h)
    (hst : s.heapStart ≠ 0) (hn₁ : 1 ≤ n) (hn : n ≤ 2 ^ 64 - 24) :
    ∃ r, malloc ok s n = some r ∧ (r.2 ≠ 0 →
      getSize r.1 (r.2 - 8) = (if n ≤ 8 then 16 else (n + 8 + 15) / 16 * 16) ∧
      getAlloc r.1 (r.2 - 8) = true ∧
      ∃ S h', HeapInv r.1 h' ∧ adjustSize n ≤ S ∧
        (findFit s (adjustSize n) ≠ 0 → r.2 = findFit s (adjustSize n) + 8 ∧
          S = getSize s (findFit s (adjustSize n))) ∧
        (findFit s (adjustSize n) = 0 → ∃ s₁, extendHeap ok s
          (Header.max (adjustSize n) chunksize) = some (s₁, r.2 - 8) ∧ S = getSize s₁ (r.2 - 8)) ∧
        (adjustSize n < S → getSize r.1 (r.2 - 8 + adjustSize n) = S - adjustSize n ∧
          getAlloc r.1 (r.2 - 8 + adjustSize n) = false ∧
          r.2 - 8 + adjustSize n ∈ h'.bins (getListIndex (S - adjustSize n)) ∧
          getPrevAlloc r.1 (r.2 - 8 + S) = false ∧
          getPrevMini r.1 (r.2 - 8 + S) = (S - adjustSize n == 16))) := by
  obtain ⟨h16, hmin, hlt, -⟩ := adjustSize_bounds hn
  obtain ⟨r, hr, ⟨rfl, -⟩ | ⟨hr0, S, h', hA, hfit, hext⟩⟩ :=
    malloc_spec ok hinv hst (show n ≠ 0 by omega) h16 hmin hlt
  · exact ⟨_, hr, fun h0 => absurd rfl h0⟩
  refine ⟨r, hr, fun _ => ?_⟩
  obtain ⟨pre, post, hbs, hp⟩ := hA.blocks
  have hinv' := hA.inv
  have hst' : r.1.heapStart = s.heapStart := hA.heapStart
  -- the block handed out
  have hb : BlockAt r.1.heapStart h'.blocks (r.2 - 8) ⟨adjustSize n, true⟩ :=
    ⟨pre, _, hbs, by rw [hst']; omega⟩
  obtain ⟨hsz, hal⟩ := hinv'.read hb
  refine ⟨hsz.trans (adjustSize_eq hn), hal, S, h', hinv', hA.fits,
    fun hf => ⟨(hfit hf).1, (hfit hf).2.1⟩,
    fun hf => let ⟨s₁, he, hS, _⟩ := hext hf; ⟨s₁, he, hS⟩, fun hlt' => ?_⟩
  -- the surplus, split off after it
  rw [if_neg hlt'.ne'] at hbs
  have hrem : BlockAt r.1.heapStart h'.blocks (r.2 - 8 + adjustSize n)
      ⟨S - adjustSize n, false⟩ :=
    ⟨pre ++ [⟨adjustSize n, true⟩], post, by rw [hbs]; simp, by rw [hst']; simp; omega⟩
  obtain ⟨hsz', hal'⟩ := hinv'.read hrem
  obtain ⟨hpa, hpm⟩ := hinv'.next_flags hrem
  rw [show r.2 - 8 + adjustSize n + (S - adjustSize n) = r.2 - 8 + S by omega] at hpa hpm
  exact ⟨hsz', hal', hinv'.listed _ _ hrem rfl, hpa, hpm⟩

/-- In every reachable system, a block `malloc(n)` returns has exactly `a(n)` bytes. It was cut
from the block `find_fit` chose or the one `extend_heap` returned, on the heap `s₀` they ran on:
the state itself, or the heap `mm_init` set up when `heap_start` was `NULL`. Any surplus after
it is a free block on the list of its size, recorded as such in the header after it. -/
theorem malloc_reach (ok : Nat → Bool) {σ : Sys} {n : Nat} (hR : Reach InitOnce σ)
    (hn₁ : 1 ≤ n) (hn : n ≤ 2 ^ 64 - 24) :
    ∃ r, malloc ok σ.st n = some r ∧ (r.2 ≠ 0 →
      getSize r.1 (r.2 - 8) = (if n ≤ 8 then 16 else (n + 8 + 15) / 16 * 16) ∧
      getAlloc r.1 (r.2 - 8) = true ∧
      ∃ s₀ S h', (σ.st.heapStart ≠ 0 ∧ s₀ = σ.st ∨
          σ.st.heapStart = 0 ∧ mmInit ok σ.st = some (s₀, true)) ∧
        HeapInv r.1 h' ∧ adjustSize n ≤ S ∧
        (findFit s₀ (adjustSize n) ≠ 0 → r.2 = findFit s₀ (adjustSize n) + 8 ∧
          S = getSize s₀ (findFit s₀ (adjustSize n))) ∧
        (findFit s₀ (adjustSize n) = 0 → ∃ s₁, extendHeap ok s₀
          (Header.max (adjustSize n) chunksize) = some (s₁, r.2 - 8) ∧ S = getSize s₁ (r.2 - 8)) ∧
        (adjustSize n < S → getSize r.1 (r.2 - 8 + adjustSize n) = S - adjustSize n ∧
          getAlloc r.1 (r.2 - 8 + adjustSize n) = false ∧
          r.2 - 8 + adjustSize n ∈ h'.bins (getListIndex (S - adjustSize n)) ∧
          getPrevAlloc r.1 (r.2 - 8 + S) = false ∧
          getPrevMini r.1 (r.2 - 8 + S) = (S - adjustSize n == 16))) := by
  rcases hR.sysInv with ⟨hU, -⟩ | ⟨hst, h, hinv, -⟩
  · -- `malloc` sets the heap up first, and allocates on it when the arena grants it
    obtain ⟨s₁, b, hi, -, hL⟩ := mmInit_sys ok hU
    cases b
    · rw [malloc_uninit ok n hU.1 hi fun h => absurd h (by decide)]
      exact ⟨_, rfl, fun h0 => absurd rfl h0⟩
    obtain ⟨hst₁, h₁, hinv₁, -⟩ := hL rfl
    obtain ⟨r, hr, hc⟩ := malloc_split ok hinv₁ hst₁ hn₁ hn
    refine ⟨r, by rw [malloc_uninit ok n hU.1 hi fun _ => hst₁, if_pos rfl, hr], fun h0 => ?_⟩
    obtain ⟨h₂, h₃, S, h', rest⟩ := hc h0
    exact ⟨h₂, h₃, s₁, S, h', .inr ⟨hU.1, hi⟩, rest⟩
  · obtain ⟨r, hr, hc⟩ := malloc_split ok hinv hst hn₁ hn
    refine ⟨r, hr, fun h0 => ?_⟩
    obtain ⟨h₂, h₃, S, h', rest⟩ := hc h0
    exact ⟨h₂, h₃, σ.st, S, h', .inl ⟨hst, rfl⟩, rest⟩

/-- `malloc(1)` at the start of a run: `mm_init` sets the heap up, and the 16 bytes at 8 are
split off its free chunk. -/
theorem malloc_reach_start : Reach InitOnce ⟨emptyState, []⟩ ∧ 1 ≤ 1 ∧ 1 ≤ 2 ^ 64 - 24 ∧
    ∃ r, malloc (fun _ => true) emptyState 1 = some r ∧ (r.2 ≠ 0 →
      getSize r.1 (r.2 - 8) = (if 1 ≤ 8 then 16 else (1 + 8 + 15) / 16 * 16) ∧
      getAlloc r.1 (r.2 - 8) = true ∧
      ∃ s₀ S h', (emptyState.heapStart ≠ 0 ∧ s₀ = emptyState ∨
          emptyState.heapStart = 0 ∧ mmInit (fun _ => true) emptyState = some (s₀, true)) ∧
        HeapInv r.1 h' ∧ adjustSize 1 ≤ S ∧
        (findFit s₀ (adjustSize 1) ≠ 0 → r.2 = findFit s₀ (adjustSize 1) + 8 ∧
          S = getSize s₀ (findFit s₀ (adjustSize 1))) ∧
        (findFit s₀ (adjustSize 1) = 0 → ∃ s₁, extendHeap (fun _ => true) s₀
          (Header.max (adjustSize 1) chunksize) = some (s₁, r.2 - 8) ∧ S = getSize s₁ (r.2 - 8)) ∧
        (adjustSize 1 < S → getSize r.1 (r.2 - 8 + adjustSize 1) = S - adjustSize 1 ∧
          getAlloc r.1 (r.2 - 8 + adjustSize 1) = false ∧
          r.2 - 8 + adjustSize 1 ∈ h'.bins (getListIndex (S - adjustSize 1)) ∧
          getPrevAlloc r.1 (r.2 - 8 + S) = false ∧
          getPrevMini r.1 (r.2 - 8 + S) = (S - adjustSize 1 == 16))) :=
  have hR : Reach InitOnce ⟨emptyState, []⟩ := .start _ rfl rfl fun _ _ => rfl
  ⟨hR, le_rfl, by decide, @malloc_reach (fun _ => true) ⟨emptyState, []⟩ 1 hR le_rfl (by decide)⟩

/-! ## Listed blocks come first -/

/-- On the heap invariant, a list head of at least `a(n)` bytes makes `find_fit` return a block,
and `malloc(n)` succeed without growing the arena. -/
theorem malloc_of_head (ok : Nat → Bool) {s : State} {h : Heap} (hinv : HeapInv s h)
    (hst : s.heapStart ≠ 0) {n i : Nat} (hn₁ : 1 ≤ n) (hn : n ≤ 2 ^ 64 - 24) (hi : i < segListNum)
    (h0 : s.segList i ≠ 0) (hle : adjustSize n ≤ getSize s (s.segList i)) :
    findFit s (adjustSize n) ≠ 0 ∧ ∃ r, malloc ok s n = some r ∧ r.2 ≠ 0 ∧ r.1.brk = s.brk := by
  obtain ⟨h16, hmin, hlt, -⟩ := adjustSize_bounds hn
  have hz : s.segList i ∈ (h.bins i).head? := by
    have hhead := hinv.lists.heads i hi
    cases hb : h.bins i with
    | nil => rw [hb] at hhead; exact absurd hhead h0
    | cons z l => rw [hb] at hhead; simp [hhead]
  obtain ⟨j, c, hzj, -, -⟩ := (findFit_spec hinv hmin h16).2 ⟨i, hi, _, hz, hle⟩
  have hf : findFit s (adjustSize n) ≠ 0 := (hinv.lists.pos hinv.arena hzj).ne'
  obtain ⟨r, hr, ⟨-, hf0, -⟩ | ⟨hr0, S, h', -, hfit, -⟩⟩ :=
    malloc_spec ok hinv hst (show n ≠ 0 by omega) h16 hmin hlt
  · exact absurd hf0 hf
  · exact ⟨hf, r, hr, hr0, (hfit hf).2.2⟩

/-- In every reachable system with the heap initialized, a list head of at least `a(n)` bytes
makes `malloc(n)` succeed without `mem_sbrk`; so does a `free(p)` just before it, of a block of
at least `a(n)` bytes. -/
theorem fit_reach (ok : Nat → Bool) {σ : Sys} {n : Nat} (hR : Reach InitOnce σ)
    (hst : σ.st.heapStart ≠ 0) (hn₁ : 1 ≤ n) (hn : n ≤ 2 ^ 64 - 24) :
    (∀ i < segListNum, σ.st.segList i ≠ 0 → adjustSize n ≤ getSize σ.st (σ.st.segList i) →
      findFit σ.st (adjustSize n) ≠ 0 ∧
        ∃ r, malloc ok σ.st n = some r ∧ r.2 ≠ 0 ∧ r.1.brk = σ.st.brk) ∧
    ∀ p ∈ σ.live, adjustSize n ≤ getSize σ.st (p - 8) → ∃ s', free σ.st p = some s' ∧
      ∃ r, malloc ok s' n = some r ∧ r.2 ≠ 0 ∧ r.1.brk = σ.st.brk := by
  rcases hR.sysInv with ⟨hU, -⟩ | ⟨-, h, hinv, hl⟩
  · exact absurd hU.1 hst
  refine ⟨fun i hi h0 hle => malloc_of_head ok hinv hst hn₁ hn hi h0 hle, fun p hp hle => ?_⟩
  -- `free` leaves the merged block, of at least the freed size, at the head of its list
  obtain ⟨S, hS, h8⟩ := mem_payloads.1 (hl.subset hp)
  obtain ⟨pre, post, hbs, hx⟩ := mem_allocs.1 hS
  obtain ⟨s', h', hfree, hc⟩ := free_spec hinv hbs rfl
  rw [← hx, Nat.sub_add_cancel h8] at hfree
  have hSz : getSize σ.st (p - 8) = S := (hinv.read (mem_allocs.1 hS)).1
  have hF : BlockAt s'.heapStart h'.blocks (σ.st.heapStart + span (absorbPrev pre).1)
      ⟨mergedSize pre ⟨S, false⟩ post, false⟩ := by
    rw [hc.blocks, hc.heapStart]; exact blockAt_here _ _ _ _
  have hM := (hc.inv.read hF).1
  have hi : getListIndex (mergedSize pre ⟨S, false⟩ post) < segListNum := by
    have := getListIndex_le (mergedSize pre ⟨S, false⟩ post); unfold segListNum; omega
  obtain ⟨-, r, hr, hr0, hbrk⟩ := malloc_of_head ok hc.inv (hc.heapStart ▸ hst) hn₁ hn hi
    (by rw [hc.head]; omega) (by rw [hc.head, hM]; simp only [mergedSize]; omega)
  exact ⟨s', hfree, r, hr, hr0, hbrk.trans hc.brk⟩

/-- After `mm_init` and `malloc(1)`, a request of one byte. -/
theorem fit_reach_mallocSys : Reach InitOnce mallocSys ∧ mallocSys.st.heapStart ≠ 0 ∧ 1 ≤ 1 ∧
    1 ≤ 2 ^ 64 - 24 ∧
    (∀ i < segListNum, mallocSys.st.segList i ≠ 0 →
      adjustSize 1 ≤ getSize mallocSys.st (mallocSys.st.segList i) →
      findFit mallocSys.st (adjustSize 1) ≠ 0 ∧
        ∃ r, malloc (fun _ => true) mallocSys.st 1 = some r ∧ r.2 ≠ 0 ∧ r.1.brk = mallocSys.st.brk) ∧
    ∀ p ∈ mallocSys.live, adjustSize 1 ≤ getSize mallocSys.st (p - 8) →
      ∃ s', free mallocSys.st p = some s' ∧
        ∃ r, malloc (fun _ => true) s' 1 = some r ∧ r.2 ≠ 0 ∧ r.1.brk = mallocSys.st.brk :=
  ⟨reach_mallocSys, by decide, le_rfl, by decide,
    fit_reach _ reach_mallocSys (by decide) le_rfl (by decide)⟩

/-! ## What `free` leaves -/

/-- The blocks `coalesce_block` merges with the freed one: the free neighbour on each side, if
any. -/
theorem absorb_split (pre post : List Blk) :
    ∃ U V, pre = (absorbPrev pre).1 ++ U ∧ post = V ++ (absorbNext post).2 ∧
      span U = (absorbPrev pre).2 ∧ span V = (absorbNext post).1 := by
  have hU : ∃ U, pre = (absorbPrev pre).1 ++ U ∧ span U = (absorbPrev pre).2 := by
    rcases List.eq_nil_or_concat pre with rfl | ⟨L, P, rfl⟩
    · exact ⟨[], rfl, rfl⟩
    · rw [List.concat_eq_append]
      cases hP : P.alloc
      · rw [absorbPrev_of_free hP]; exact ⟨[P], rfl, by simp⟩
      · rw [absorbPrev_of_alloc (by simp [hP])]; exact ⟨[], by simp, rfl⟩
  have hV : ∃ V, post = V ++ (absorbNext post).2 ∧ span V = (absorbNext post).1 := by
    cases post with
    | nil => exact ⟨[], rfl, rfl⟩
    | cons N R =>
      cases hN : N.alloc
      · rw [absorbNext_of_free hN]; exact ⟨[N], rfl, by simp⟩
      · rw [absorbNext_of_alloc (by simp [hN])]; exact ⟨[], rfl, rfl⟩
  obtain ⟨U, hU₁, hU₂⟩ := hU
  obtain ⟨V, hV₁, hV₂⟩ := hV
  exact ⟨U, V, hU₁, hV₁, hU₂, hV₂⟩

/-- Modelled from the spec: `free` of the block `B` between `pre` and `post` of the walk of `h`
left `s'` with the walk of `h'`. `B` is merged with a free neighbour on each side into one free
block `F` at `x`, which heads the list of its size and is the only entry at `x`; the address
after `B` is on no list; the header after `F` records a free block; and every block outside `F`
stays where it was. -/
structure Freed (s : State) (h : Heap) (pre : List Blk) (B : Blk) (post : List Blk) (s' : State)
    (h' : Heap) : Prop where
  inv : HeapInv s' h'
  heapStart : s'.heapStart = s.heapStart
  brk : s'.brk = s.brk
  blocks : h'.blocks = (absorbPrev pre).1 ++ ⟨mergedSize pre B post, false⟩ :: (absorbNext post).2
  head : s'.segList (getListIndex (mergedSize pre B post)) = s.heapStart + span (absorbPrev pre).1
  next : getPrevAlloc s' (s.heapStart + span (absorbPrev pre).1 + mergedSize pre B post) = false ∧
    getPrevMini s' (s.heapStart + span (absorbPrev pre).1 + mergedSize pre B post) =
      (mergedSize pre B post == 16)
  unlisted : ∀ i, s.heapStart + span pre + B.size ∉ h'.bins i
  entry : ∀ i, s.heapStart + span (absorbPrev pre).1 ∈ h'.bins i →
    i = getListIndex (mergedSize pre B post)
  kept : ∀ y c, BlockAt s.heapStart h.blocks y c →
    y + c.size ≤ s.heapStart + span (absorbPrev pre).1 ∨
      s.heapStart + span (absorbPrev pre).1 + mergedSize pre B post ≤ y →
    BlockAt s.heapStart h'.blocks y c

/-- What `coalesce_block` leaves after `free` marks `B` free, in the spec's terms. -/
theorem freed_of_coalesced {s s' : State} {h h' : Heap} {pre post : List Blk} {B : Blk}
    (hc : Coalesced s { h with blocks := pre ++ ⟨B.size, false⟩ :: post } pre ⟨B.size, false⟩ post
      s' h') (hbs : h.blocks = pre ++ B :: post) (hok : SizesOk h.blocks) :
    Freed s h pre B post s' h' := by
  obtain ⟨U, V, hU, hV, hsU, hsV⟩ := absorb_split pre post
  have hcb : h'.blocks = (absorbPrev pre).1 ++ ⟨mergedSize pre B post, false⟩ :: (absorbNext post).2 :=
    hc.blocks
  have hok' := hc.inv.arena.sizes
  have hb16 := (hok B (by rw [hbs]; simp)).2
  have hM : mergedSize pre B post = span U + B.size + span V := by
    simp only [mergedSize, hsU, hsV]
  have hpre : span pre = span (absorbPrev pre).1 + span U := by
    conv_lhs => rw [hU]
    simp
  -- the merged block `F` at `x`
  have hF : BlockAt s'.heapStart h'.blocks (s.heapStart + span (absorbPrev pre).1)
      ⟨mergedSize pre B post, false⟩ := by
    rw [hcb, hc.heapStart]; exact blockAt_here _ _ _ _
  refine ⟨hc.inv, hc.heapStart, hc.brk, hcb, hc.head, ?_, fun i hz => ?_, fun i hx => ?_,
    fun y c hy hout => ?_⟩
  · have := hc.inv.next_flags hF
    simp only at this
    exact this
  · -- the address after `B` is inside `F`, or the start of an allocated block or the epilogue
    obtain ⟨c, hc', hfree, -⟩ := hc.inv.lists.members i _ hz
    have hs := hc.heapStart
    have hbd := blockAt_bound hc'
    have hc16 := (hok' c (blockAt_mem hc')).2
    cases post with
    | nil =>
      -- past the last block
      rw [hcb] at hbd
      simp only [absorbNext, span_append, span_cons, span_nil] at hbd hsV hM
      omega
    | cons N R =>
      have hN16 := (hok N (by rw [hbs]; simp)).2
      cases hN : N.alloc
      · -- inside `F`
        have e : absorbNext (N :: R) = (N.size, R) := absorbNext_of_free hN
        rw [e] at hsV
        rcases blockAt_apart hok' hc' hF with ⟨h1, -⟩ | h1 | h1
        · omega
        · omega
        · simp only at h1; omega
      · -- the start of `N`, allocated
        have e : absorbNext (N :: R) = (0, N :: R) := absorbNext_of_alloc (by simp [hN])
        rw [e] at hsV
        have hN' : BlockAt s'.heapStart h'.blocks (s.heapStart + span pre + B.size) N := by
          rw [hcb, e, hs]
          exact ⟨(absorbPrev pre).1 ++ [⟨mergedSize pre B (N :: R), false⟩], R, by simp,
            by simp only [span_append, span_cons, span_nil]; omega⟩
        rw [blockAt_unique hok' hc' hN', hN] at hfree
        exact Bool.noConfusion hfree
  · -- the only entry at `x` is `F`'s
    obtain ⟨c, hc', -, hi⟩ := hc.inv.lists.members i _ hx
    rw [blockAt_unique hok' hc' hF] at hi
    simp only at hi
    exact hi.symm
  · -- a block outside `F` is none of those merged into it
    have hsplit : h.blocks = (absorbPrev pre).1 ++ (U ++ B :: V) ++ (absorbNext post).2 := by
      rw [hbs]; conv_lhs => rw [hU, hV]
      simp
    have hc16 := (hok c (blockAt_mem hy)).2
    rw [hsplit] at hy
    have hz : ∀ d, ¬ BlockAt (s.heapStart + span (absorbPrev pre).1) (U ++ B :: V) y d := by
      intro d hd
      have := blockAt_bound hd
      have := (hok d (by
        rw [hsplit]; exact List.mem_append_left _ (List.mem_append_right _ (blockAt_mem hd)))).2
      simp only [span_append, span_cons] at *
      omega
    have := blockAt_splice hy hz (show span [⟨mergedSize pre B post, false⟩] = span (U ++ B :: V) by
      simp only [span_cons, span_nil, span_append]; omega)
    rw [hcb]
    simpa using this

/-- In every reachable system, `free(p)` of a held pointer merges its block with the free
neighbours into one free block at the head of its list, and leaves the other blocks. -/
theorem free_reach {σ : Sys} {p : Nat} (hR : Reach InitOnce σ) (hp : p ∈ σ.live) :
    ∃ h pre B post, HeapInv σ.st h ∧ h.blocks = pre ++ B :: post ∧ B.alloc = true ∧
      p = σ.st.heapStart + span pre + 8 ∧
      ∃ s' h', free σ.st p = some s' ∧ Freed σ.st h pre B post s' h' := by
  rcases hR.sysInv with ⟨-, h0⟩ | ⟨-, h, hinv, hl⟩
  · exact absurd (h0 ▸ hp) (List.not_mem_nil p)
  obtain ⟨S, hS, h8⟩ := mem_payloads.1 (hl.subset hp)
  obtain ⟨pre, post, hbs, hx⟩ := mem_allocs.1 hS
  obtain ⟨s', h', hfree, hc⟩ := free_spec hinv hbs rfl
  rw [← hx, Nat.sub_add_cancel h8] at hfree
  exact ⟨h, pre, _, post, hinv, hbs, rfl, by omega, s', h', hfree, freed_of_coalesced hc hbs hinv.arena.sizes⟩

/-- `free(16)` after `mm_init` and `malloc(1)`. -/
theorem free_reach_mallocSys : Reach InitOnce mallocSys ∧ 16 ∈ mallocSys.live ∧
    ∃ h pre B post, HeapInv mallocSys.st h ∧ h.blocks = pre ++ B :: post ∧ B.alloc = true ∧
      16 = mallocSys.st.heapStart + span pre + 8 ∧
      ∃ s' h', free mallocSys.st 16 = some s' ∧ Freed mallocSys.st h pre B post s' h' :=
  ⟨reach_mallocSys, List.mem_singleton_self _, free_reach reach_mallocSys (List.mem_singleton_self _)⟩

/-! ## `realloc` -/

/-- In every reachable system, a `realloc(p, n)` of a held pointer that returns a block `q`
hands it out in place of `p`, with room for `n` bytes and the first `min(n, L)` bytes of `p`'s
payload of `L` bytes. -/
theorem realloc_reach (ok : Nat → Bool) {σ : Sys} {p n : Nat} (hR : Reach InitOnce σ)
    (hp : p ∈ σ.live) (hn₁ : 1 ≤ n) (hn : n ≤ 2 ^ 64 - 24) :
    ∃ r σ', realloc ok σ.st p n = some r ∧ σ.call ok (.realloc p n) = some σ' ∧
      (r.2 ≠ 0 → r.2 ∈ σ'.live ∧ p ∉ σ'.live ∧ n ≤ getSize σ'.st (r.2 - 8) - 8 ∧
        ∀ i < min n (getSize σ.st (p - 8) - 8), σ'.st.mem (r.2 + i) = σ.st.mem (p + i)) := by
  rcases hR.sysInv with ⟨-, h0⟩ | ⟨hst, h, hinv, hl⟩
  · exact absurd (h0 ▸ hp) (List.not_mem_nil p)
  have hn0 : n ≠ 0 := by omega
  obtain ⟨S, hS, h8⟩ := mem_payloads.1 (hl.subset hp)
  have hSz := (hinv.read (mem_allocs.1 hS)).1
  obtain ⟨h16, hmin, hlt, hfit⟩ := adjustSize_bounds hn
  obtain ⟨⟨s₁, q⟩, hr, ⟨hr', -⟩ | ⟨hq, T, h₁, hA, -⟩⟩ := malloc_spec ok hinv hst hn0 h16 hmin hlt
  · -- no block: `NULL`, and nothing more to show
    obtain ⟨rfl, rfl⟩ := Prod.mk.inj hr'
    have hre : realloc ok σ.st p n = some (σ.st, 0) := by
      rw [realloc_eq ok σ.st (show p ≠ 0 by omega) hn0, hr]; rfl
    exact ⟨_, σ, hre, by simp [Sys.call, hre, hn0], fun h0 => absurd rfl h0⟩
  obtain ⟨s', h', hre, hinv', hperm, -, hst', -, hcopy⟩ := realloc_spec hinv hS h8 hn0 hr hq hA hfit
  -- the new block is not `p`'s, and it stays in the table
  have hqp : q - 8 ≠ p - 8 := hA.fresh hS
  have hq' : (q - 8, adjustSize n) ∈ allocs s'.heapStart h'.blocks := by
    rw [hst']
    exact (List.mem_cons.1 (hperm.symm.subset (List.mem_cons_self _ _))).resolve_left
      fun h => hqp (Prod.mk.inj h).1
  refine ⟨_, ⟨s', q :: σ.live.erase p⟩, hre, by simp [Sys.call, hre, hn0, hq, addLive],
    fun _ => ⟨List.mem_cons_self _ _, fun hp' => ?_, ?_, fun i hi => ?_⟩⟩
  · rcases List.mem_cons.1 hp' with h | h
    · exact hqp (by rw [h])
    · exact (hl.nodup_iff.2 (payloads_nodup _ hinv.arena.sizes)).not_mem_erase h
  · show n ≤ getSize s' (q - 8) - 8
    rw [(hinv'.read (mem_allocs.1 hq')).1]; simp only; omega
  · rw [hSz] at hi; exact hcopy i hi

/-- `realloc(16, 1)` after `mm_init` and `malloc(1)`. -/
theorem realloc_reach_mallocSys : Reach InitOnce mallocSys ∧ 16 ∈ mallocSys.live ∧ 1 ≤ 1 ∧
    1 ≤ 2 ^ 64 - 24 ∧ ∃ r σ', realloc (fun _ => true) mallocSys.st 16 1 = some r ∧
      mallocSys.call (fun _ => true) (.realloc 16 1) = some σ' ∧
      (r.2 ≠ 0 → r.2 ∈ σ'.live ∧ 16 ∉ σ'.live ∧ 1 ≤ getSize σ'.st (r.2 - 8) - 8 ∧
        ∀ i < min 1 (getSize mallocSys.st (16 - 8) - 8), σ'.st.mem (r.2 + i) = mallocSys.st.mem (16 + i)) :=
  ⟨reach_mallocSys, List.mem_singleton_self _, le_rfl, by decide,
    realloc_reach _ reach_mallocSys (List.mem_singleton_self _) le_rfl (by decide)⟩

end SegMalloc.Calls
