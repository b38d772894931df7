import SegMalloc.ApiSpec

/-! Runs of the allocator under a client. A call is `mm_init` or one of the four interface
functions, each meeting the arena's answers to its `mem_sbrk` requests; the system pairs the
state with the pointers the client holds. A client keeps the contract of the interface when
it passes back only `NULL` or live pointers and asks for at most `2^64 - 24` bytes;
`InitOnce` adds that it calls `mm_init` only on the uninitialized heap. Every system the runs
of such a client reach satisfies `SysInv`: the heap is uninitialized, or it satisfies the heap
invariant with the live pointers exactly the payloads of its allocated blocks. And every call
returns, so a run can be stepped one granted call at a time (`Sys.next`). -/
namespace SegMalloc.Run
open Header Block Api Invariant Table MallocSpec ApiSpec

/-- A call of the allocator's interface. -/
inductive Call
  | init
  | malloc (size : Nat)
  | free (ptr : Nat)
  | realloc (ptr size : Nat)
  | calloc (elements size : Nat)
  deriving DecidableEq, Repr

/-- Modelled from the spec: the pointer a call passes back, `NULL` for those that pass none. -/
def Call.ptr : Call → Nat
  | .free p => p
  | .realloc p _ => p
  | _ => 0

/-- The allocator and its client: the state, and the pointers the client holds. -/
structure Sys where
  st : State
  live : List Nat

/-- The pointers held after a call returns `p`; `NULL` is not held. -/
def addLive (p : Nat) (live : List Nat) : List Nat := if p = 0 then live else p :: live

/-- Modelled from the spec: one call, with the arena's answers `ok`. `free(p)` ends `p`;
`realloc(p, n)` ends `p` when it frees it (`n = 0`) or returns a new block; a returned block
is held. -/
def Sys.call (ok : Nat → Bool) (σ : Sys) : Call → Option Sys
  | .init => (mmInit ok σ.st).map fun r => ⟨r.1, σ.live⟩
  | .malloc n => (malloc ok σ.st n).map fun r => ⟨r.1, addLive r.2 σ.live⟩
  | .free p => (free σ.st p).map fun s => ⟨s, σ.live.erase p⟩
  | .realloc p n => (realloc ok σ.st p n).map fun r =>
      ⟨r.1, if n = 0 then σ.live.erase p
        else if r.2 = 0 then σ.live else addLive r.2 (σ.live.erase p)⟩
  | .calloc e n => (calloc ok σ.st e n).map fun r => ⟨r.1, addLive r.2 σ.live⟩

/-- Modelled from the spec: the client's side of a call. A pointer passed back is `NULL` or
live, and no request exceeds `2^64 - 24` bytes. -/
def Contract (σ : Sys) : Call → Prop
  | .init => True
  | .malloc n => n ≤ 2 ^ 64 - 24
  | .free p => p = 0 ∨ p ∈ σ.live
  | .realloc p n => (p = 0 ∨ p ∈ σ.live) ∧ n ≤ 2 ^ 64 - 24
  | .calloc e n => e * n ≤ 2 ^ 64 - 24

/-- The contract, with `mm_init` called only while the heap is uninitialized. -/
def InitOnce (σ : Sys) (c : Call) : Prop := Contract σ c ∧ (c = .init → σ.st.heapStart = 0)

/-- Modelled from the spec: the systems reached by runs of calls allowed by `P` from the
uninitialized allocator (no heap, an empty arena, every list head `NULL`). Each call meets
its own answers `ok` of the arena, which may refuse any request. -/
inductive Reach (P : Sys → Call → Prop) : Sys → Prop
  | start (s : State) : s.heapStart = 0 → s.brk = s.lo → (∀ i < segListNum, s.segList i = 0) →
      Reach P ⟨s, []⟩
  | step {σ σ' : Sys} (ok : Nat → Bool) (c : Call) : Reach P σ → P σ c →
      σ.call ok c = some σ' → Reach P σ'

/-- The uninitialized allocator: no heap, an empty arena, every list head `NULL`. -/
def Uninit (s : State) : Prop :=
  s.heapStart = 0 ∧ s.brk = s.lo ∧ ∀ i < segListNum, s.segList i = 0

/-- The heap is initialized and satisfies the invariant, and the client's pointers are the
payloads of its allocated blocks. -/
def Live (s : State) (live : List Nat) : Prop :=
  s.heapStart ≠ 0 ∧ ∃ h, HeapInv s h ∧ live.Perm (payloads s.heapStart h.blocks)

/-- What every reachable system satisfies. -/
def SysInv (σ : Sys) : Prop := (Uninit σ.st ∧ σ.live = []) ∨ Live σ.st σ.live

/-- Modelled from the spec: through a call from `s` to `s'`, every held pointer but `p` keeps
its block: the size and the alloc bit of its header, and every byte of its payload. -/
def Keeps (s s' : State) (live : List Nat) (p : Nat) : Prop :=
  ∀ q ∈ live, q ≠ p → getSize s' (q - 8) = getSize s (q - 8) ∧ getAlloc s' (q - 8) = true ∧
    ∀ y, q ≤ y → y < q + getSize s (q - 8) - 8 → s'.mem y = s.mem y

theorem keeps_nil (s s' : State) (p : Nat) : Keeps s s' [] p := fun q hq => absurd hq (List.not_mem_nil q)

theorem addLive_zero (live : List Nat) : addLive 0 live = live := if_pos rfl

theorem Live.erase_zero {s : State} {live : List Nat} (hL : Live s live) : live.erase 0 = live := by
  obtain ⟨-, h, -, hl⟩ := hL
  exact List.erase_of_not_mem fun h0 => by
    obtain ⟨_, -, h8⟩ := mem_payloads.1 (hl.subset h0)
    omega

/-- Pointers whose entries stay in the allocation table, with their payload bytes, keep their
blocks. -/
theorem keeps_of_table {s s' : State} {h h' : Heap} {live : List Nat} {p : Nat}
    (hinv : HeapInv s h) (hinv' : HeapInv s' h') (hst : s'.heapStart = s.heapStart)
    (hl : live.Perm (payloads s.heapStart h.blocks))
    (hkeep : ∀ e ∈ allocs s.heapStart h.blocks, e.1 + 8 ≠ p → e ∈ allocs s.heapStart h'.blocks ∧
      ∀ y, e.1 + 8 ≤ y → y < e.1 + e.2 → s'.mem y = s.mem y) :
    Keeps s s' live p := by
  intro q hq hqp
  obtain ⟨S, hS, h8⟩ := mem_payloads.1 (hl.subset hq)
  obtain ⟨hS', hmem⟩ := hkeep _ hS (by simp only; omega)
  have hsz := (hinv.read (mem_allocs.1 hS)).1
  rw [← hst] at hS'
  obtain ⟨hsz', hal'⟩ := hinv'.read (mem_allocs.1 hS')
  refine ⟨hsz'.trans hsz.symm, hal', fun y h₁ h₂ => hmem y (by simp only; omega) ?_⟩
  rw [hsz] at h₂
  simp only at h₂ ⊢; omega

theorem Live.keeps_self {s : State} {live : List Nat} (hL : Live s live) (p : Nat) :
    Keeps s s live p := by
  obtain ⟨-, h, hinv, hl⟩ := hL
  exact keeps_of_table hinv hinv rfl hl fun e he _ => ⟨he, fun _ _ _ => rfl⟩

/-- Two payload lists that differ by `p` out and `q` in. -/
private theorem perm_cons_erase_of_perm {p q : Nat} {P P' : List Nat} (hp : p ∈ P)
    (h : (p :: P').Perm (q :: P)) : P'.Perm (q :: P.erase p) := by
  have e := h.erase p
  rw [List.erase_cons_head] at e
  refine e.trans ?_
  by_cases hqp : q = p
  · subst hqp; rw [List.erase_cons_head]; exact List.perm_cons_erase hp
  · rw [List.erase_cons_tail (by simpa using hqp)]

/-! ## The calls on a live heap -/

section LiveCalls

variable (ok : Nat → Bool) {s : State} {live : List Nat}

theorem malloc_live {n : Nat} (hL : Live s live) (hn : n ≤ 2 ^ 64 - 24) :
    ∃ r, malloc ok s n = some r ∧ Live r.1 (addLive r.2 live) ∧ Keeps s r.1 live 0 := by
  have hkeep : Live (s, 0).1 (addLive (s, 0).2 live) ∧ Keeps s (s, 0).1 live 0 :=
    ⟨by rw [addLive_zero]; exact hL, hL.keeps_self 0⟩
  obtain ⟨hst, h, hinv, hl⟩ := hL
  by_cases hn0 : n = 0
  · exact ⟨(s, 0), by rw [hn0]; exact malloc_zero ok hst, hkeep⟩
  obtain ⟨h16, hmin, hlt, -⟩ := adjustSize_bounds hn
  obtain ⟨r, hr, ⟨rfl, -⟩ | ⟨hr0, S, h', hA, -⟩⟩ := malloc_spec ok hinv hst hn0 h16 hmin hlt
  · exact ⟨_, hr, hkeep⟩
  · refine ⟨r, hr, ?_, keeps_of_table hinv hA.inv hA.heapStart hl fun e he _ =>
      ⟨hA.table.symm.subset (List.mem_cons_of_mem _ he), fun y h₁ h₂ => hA.frame y ⟨e, he, h₁, h₂⟩⟩⟩
    rw [addLive, if_neg hr0]
    exact ⟨hA.heapStart ▸ hst, h', hA.inv, hA.heapStart ▸ hA.perm_live hl⟩

theorem free_live {p : Nat} (hL : Live s live) (hp : p = 0 ∨ p ∈ live) :
    ∃ s', free s p = some s' ∧ Live s' (live.erase p) ∧ Keeps s s' live p := by
  rcases hp with rfl | hp
  · exact ⟨s, free_zero s, by rw [hL.erase_zero]; exact hL, hL.keeps_self 0⟩
  obtain ⟨hst, h, hinv, hl⟩ := hL
  obtain ⟨n, hq, h8⟩ := mem_payloads.1 (hl.subset hp)
  obtain ⟨s', h', hfree, hinv', hperm, -, -, hst', hag⟩ := free_table hinv hq
  rw [Nat.sub_add_cancel h8] at hfree
  refine ⟨s', hfree, ⟨hst' ▸ hst, h', hinv', ?_⟩,
    keeps_of_table hinv hinv' hst' hl fun e he hep => ?_⟩
  · have e := (hperm.map fun q => q.1 + 8).symm.erase p
    rw [List.map_cons, Nat.sub_add_cancel h8, List.erase_cons_head] at e
    rw [hst']
    exact (hl.erase p).trans e
  · -- the other entries stay in the table, with their payloads
    have he' : e ∈ allocs s.heapStart h'.blocks :=
      (List.mem_cons.1 (hperm.symm.subset he)).resolve_left fun h => hep (by rw [h]; omega)
    exact ⟨he', fun y h₁ h₂ => hag y ⟨e, he', h₁, h₂⟩⟩

theorem realloc_live {p n : Nat} (hL : Live s live) (hp : p = 0 ∨ p ∈ live)
    (hn : n ≤ 2 ^ 64 - 24) :
    ∃ r, realloc ok s p n = some r ∧ Live r.1 (if n = 0 then live.erase p
      else if r.2 = 0 then live else addLive r.2 (live.erase p)) ∧ Keeps s r.1 live p := by
  by_cases hn0 : n = 0
  · obtain ⟨s', hf, hL', hK⟩ := free_live hL hp
    exact ⟨(s', 0), by rw [hn0, realloc_zero, hf]; rfl, by rw [if_pos hn0]; exact hL', hK⟩
  rcases hp with rfl | hp
  · -- `realloc(NULL, n)` is `malloc(n)`
    obtain ⟨r, hr, hL', hK⟩ := malloc_live ok hL hn
    refine ⟨r, by rw [realloc_null ok s hn0]; exact hr, ?_, hK⟩
    rw [if_neg hn0, hL.erase_zero]
    split_ifs with hr0
    · rwa [hr0, addLive_zero] at hL'
    · exact hL'
  have hK₀ := hL.keeps_self p
  obtain ⟨hst, h, hinv, hl⟩ := hL
  obtain ⟨S, hS, h8⟩ := mem_payloads.1 (hl.subset hp)
  obtain ⟨h16, hmin, hlt, hfit⟩ := adjustSize_bounds hn
  obtain ⟨⟨s₁, q⟩, hr, ⟨hr', -⟩ | ⟨hq, T, h₁, hA, -⟩⟩ := malloc_spec ok hinv hst hn0 h16 hmin hlt
  · -- no block: `p` stays live and the state is kept
    obtain ⟨rfl, rfl⟩ := Prod.mk.inj hr'
    refine ⟨(s₁, 0), by rw [realloc_eq ok s₁ (by omega) hn0, hr]; rfl, ?_, hK₀⟩
    rw [if_neg hn0, if_pos rfl]
    exact ⟨hst, h, hinv, hl⟩
  · obtain ⟨s', h', hre, hinv', hperm, -, hst', hmem, -⟩ :=
      realloc_spec hinv hS h8 hn0 hr hq hA hfit
    obtain ⟨pre, post, -, hq8⟩ := hA.blocks
    refine ⟨(s', q), hre, ?_, keeps_of_table hinv hinv' hst' hl fun e he hep => ?_⟩
    · simp only [if_neg hn0, if_neg hq, addLive]
      refine ⟨hst' ▸ hst, h', hinv', ?_⟩
      have e := hperm.map fun q => q.1 + 8
      rw [List.map_cons, List.map_cons, Nat.sub_add_cancel h8, show q - 8 + 8 = q by omega] at e
      rw [hst']
      exact ((hl.erase p).cons q).trans (perm_cons_erase_of_perm (hl.subset hp) e).symm
    · -- the other entries stay in the table, with their payloads
      have hne : e ≠ (p - 8, S) := fun h => hep (by rw [h]; simp only; omega)
      exact ⟨(List.mem_cons.1 (hperm.symm.subset (List.mem_cons_of_mem _ he))).resolve_left hne,
        hmem e he hne⟩

theorem calloc_live {e n : Nat} (hL : Live s live) (hen : e * n ≤ 2 ^ 64 - 24) :
    ∃ r, calloc ok s e n = some r ∧ Live r.1 (addLive r.2 live) ∧ Keeps s r.1 live 0 := by
  have hkeep : Live (s, 0).1 (addLive (s, 0).2 live) ∧ Keeps s (s, 0).1 live 0 :=
    ⟨by rw [addLive_zero]; exact hL, hL.keeps_self 0⟩
  by_cases he : e = 0
  · exact ⟨(s, 0), by simp [calloc, he], hkeep⟩
  have hlt : e * n < 2 ^ 64 := by omega
  obtain ⟨hst, h, hinv, hl⟩ := hL
  by_cases hz : e * n = 0
  · exact ⟨(s, 0), by rw [calloc_eq ok s he hlt, hz, malloc_zero ok hst]; rfl, hkeep⟩
  obtain ⟨h16, hmin, hlt', hfit⟩ := adjustSize_bounds hen
  obtain ⟨⟨s₁, q⟩, hr, ⟨hr', -⟩ | ⟨hq, T, h₁, hA, -⟩⟩ := malloc_spec ok hinv hst hz h16 hmin hlt'
  · obtain ⟨rfl, rfl⟩ := Prod.mk.inj hr'
    exact ⟨(s₁, 0), by rw [calloc_eq ok s₁ he hlt, hr]; rfl, hkeep⟩
  · obtain ⟨s', hc, hinv', -, hst', -, hag, -⟩ := calloc_spec he hlt hr hq hA hfit
    refine ⟨(s', q), hc, ?_, keeps_of_table hinv hinv' hst' hl fun x hx _ =>
      ⟨hA.table.symm.subset (List.mem_cons_of_mem _ hx), fun y h₁ h₂ => hag y ⟨x, hx, h₁, h₂⟩⟩⟩
    rw [addLive, if_neg hq]
    exact ⟨hst' ▸ hst, h₁, hinv', hst' ▸ hA.perm_live hl⟩

end LiveCalls

/-! ## The calls on the uninitialized heap -/

section UninitCalls

variable (ok : Nat → Bool) {s : State}

/-- `mm_init` on the uninitialized heap leaves it uninitialized, or initialized with no block
allocated, and initialized when it reports success. -/
theorem mmInit_sys (hU : Uninit s) :
    ∃ s₁ b, mmInit ok s = some (s₁, b) ∧ SysInv ⟨s₁, []⟩ ∧ (b = true → Live s₁ []) := by
  obtain ⟨s₁, b, hi, -, ⟨hst₁, hbrk₁, hseg₁, rfl⟩ | ⟨hst₁, h', hinv', hal, -⟩⟩ :=
    mmInit_spec ok hU.1 hU.2.1
  · exact ⟨s₁, false, hi, .inl ⟨⟨hst₁, hbrk₁, hseg₁⟩, rfl⟩, fun h => absurd h (by decide)⟩
  · have hL : Live s₁ [] := ⟨hst₁, h', hinv', by simp [payloads, hal]⟩
    exact ⟨s₁, b, hi, .inr hL, fun _ => hL⟩

theorem malloc_uninit_sys {n : Nat} (hU : Uninit s) (hn : n ≤ 2 ^ 64 - 24) :
    ∃ r, malloc ok s n = some r ∧ SysInv ⟨r.1, addLive r.2 []⟩ := by
  obtain ⟨s₁, b, hi, hI, hL⟩ := mmInit_sys ok hU
  cases b
  · exact ⟨(s₁, 0), by rw [malloc_uninit ok n hU.1 hi fun h => absurd h (by decide)]; rfl, hI⟩
  · obtain ⟨r, hr, hL', -⟩ := malloc_live ok (hL rfl) hn
    exact ⟨r, by rw [malloc_uninit ok n hU.1 hi fun _ => (hL rfl).1]; exact hr, .inr hL'⟩

theorem calloc_uninit_sys {e n : Nat} (hU : Uninit s) (hen : e * n ≤ 2 ^ 64 - 24) :
    ∃ r, calloc ok s e n = some r ∧ SysInv ⟨r.1, addLive r.2 []⟩ := by
  by_cases he : e = 0
  · exact ⟨(s, 0), by simp [calloc, he], .inl ⟨hU, rfl⟩⟩
  have hlt : e * n < 2 ^ 64 := by omega
  obtain ⟨s₁, b, hi, hI, hL⟩ := mmInit_sys ok hU
  rw [calloc_eq ok s he hlt]
  cases b
  · refine ⟨(s₁, 0), ?_, hI⟩
    rw [malloc_uninit ok _ hU.1 hi fun h => absurd h (by decide)]; rfl
  · obtain ⟨r, hr, hL', -⟩ := calloc_live ok (hL rfl) hen
    refine ⟨r, ?_, .inr hL'⟩
    rw [malloc_uninit ok _ hU.1 hi fun _ => (hL rfl).1, if_pos rfl, ← calloc_eq ok s₁ he hlt]
    exact hr

end UninitCalls

/-! ## Runs -/

/-- Every call the client may make returns, keeps `SysInv`, and keeps the blocks of the
held pointers it is not passed. -/
theorem SysInv.call {σ : Sys} {c : Call} (hI : SysInv σ) (hP : InitOnce σ c) (ok : Nat → Bool) :
    ∃ σ', σ.call ok c = some σ' ∧ SysInv σ' ∧ Keeps σ.st σ'.st σ.live c.ptr := by
  obtain ⟨⟨st, live⟩⟩ := σ
  obtain ⟨hC, hinit⟩ := hP
  rcases hI with ⟨hU, rfl⟩ | hL
  · -- the uninitialized heap: no pointer is held, so every pointer passed back is `NULL`
    cases c with
    | init =>
      obtain ⟨s₁, b, hi, hI, -⟩ := mmInit_sys ok hU
      exact ⟨_, by rw [Sys.call, hi]; rfl, hI, keeps_nil _ _ _⟩
    | malloc n =>
      obtain ⟨r, hr, hI⟩ := malloc_uninit_sys ok hU hC
      exact ⟨_, by rw [Sys.call, hr]; rfl, hI, keeps_nil _ _ _⟩
    | free p =>
      obtain rfl : p = 0 := hC.resolve_right (List.not_mem_nil p)
      exact ⟨_, by rw [Sys.call, free_zero]; rfl, .inl ⟨hU, rfl⟩, keeps_nil _ _ _⟩
    | realloc p n =>
      obtain rfl : p = 0 := hC.1.resolve_right (List.not_mem_nil p)
      by_cases hn0 : n = 0
      · subst hn0
        exact ⟨_, by rw [Sys.call, realloc_zero, free_zero]; rfl, .inl ⟨hU, rfl⟩, keeps_nil _ _ _⟩
      · obtain ⟨r, hr, hI⟩ := malloc_uninit_sys ok hU hC.2
        refine ⟨_, by rw [Sys.call, realloc_null ok _ hn0, hr]; rfl, ?_, keeps_nil _ _ _⟩
        dsimp only
        rw [if_neg hn0, List.erase_nil]
        split_ifs with hr0
        · simpa [hr0, addLive_zero] using hI
        · exact hI
    | calloc e n =>
      obtain ⟨r, hr, hI⟩ := calloc_uninit_sys ok hU hC
      exact ⟨_, by rw [Sys.call, hr]; rfl, hI, keeps_nil _ _ _⟩
  · cases c with
    | init => exact absurd (hinit rfl) hL.1
    | malloc n =>
      obtain ⟨r, hr, hL', hK⟩ := malloc_live ok hL hC
      exact ⟨_, by rw [Sys.call, hr]; rfl, .inr hL', by exact hK⟩
    | free p =>
      obtain ⟨s', hf, hL', hK⟩ := free_live hL hC
      exact ⟨_, by rw [Sys.call, hf]; rfl, .inr hL', by exact hK⟩
    | realloc p n =>
      obtain ⟨r, hr, hL', hK⟩ := realloc_live ok hL hC.1 hC.2
      exact ⟨_, by rw [Sys.call, hr]; rfl, .inr hL', by exact hK⟩
    | calloc e n =>
      obtain ⟨r, hr, hL', hK⟩ := calloc_live ok hL hC
      exact ⟨_, by rw [Sys.call, hr]; rfl, .inr hL', by exact hK⟩

/-- Every system that a client keeping the contract and calling `mm_init` only on the
uninitialized heap reaches satisfies `SysInv`. -/
theorem Reach.sysInv {σ : Sys} (hR : Reach InitOnce σ) : SysInv σ := by
  induction hR with
  | start s hst hbrk hseg => exact .inl ⟨⟨hst, hbrk, hseg⟩, rfl⟩
  | step ok c _ hP hc ih =>
    obtain ⟨σ', hc', hI, -⟩ := ih.call hP ok
    exact Option.some.inj (hc.symm.trans hc') ▸ hI

/-- On a live heap, the held pointers, each with its header's address and size, are the
allocation table in some order. -/
theorem Live.table {s : State} {live : List Nat} (hL : Live s live) :
    ∃ h, HeapInv s h ∧
      (∀ p ∈ live, (p - 8, getSize s (p - 8)) ∈ allocs s.heapStart h.blocks ∧ 8 ≤ p) ∧
      (live.map fun p => (p - 8, getSize s (p - 8))).Perm (allocs s.heapStart h.blocks) := by
  obtain ⟨-, h, hinv, hl⟩ := hL
  refine ⟨h, hinv, fun p hp => ?_, ?_⟩
  · obtain ⟨S, hS, h8⟩ := mem_payloads.1 (hl.subset hp)
    rw [(hinv.read (mem_allocs.1 hS)).1]
    exact ⟨hS, h8⟩
  · -- an entry is read back from its payload address
    have hread : ∀ e ∈ allocs s.heapStart h.blocks, (e.1 + 8 - 8, getSize s (e.1 + 8 - 8)) = e :=
      fun ⟨z, n⟩ he => by simp only [Nat.add_sub_cancel, (hinv.read (mem_allocs.1 he)).1]
    have e := (List.map_congr_left (g := id)
      (f := (fun p => (p - 8, getSize s (p - 8))) ∘ fun q : Nat × Nat => q.1 + 8) hread).trans
        (List.map_id _)
    have := hl.map fun p => (p - 8, getSize s (p - 8))
    rwa [payloads, List.map_map, e] at this

/-- Modelled from the spec: a sequence of calls, each meeting its answers `ok` of the arena. -/
def Sys.run (ok : Nat → Bool) (σ : Sys) : List Call → Option Sys
  | [] => some σ
  | c :: cs => (σ.call ok c).bind fun σ' => σ'.run ok cs

/-! ## Stepping a run -/

/-- The system after the call `c`, every request granted; the system itself if `c` does not
return. -/
def Sys.next (σ : Sys) (c : Call) : Sys := (σ.call (fun _ => true) c).getD σ

theorem Sys.next_eq (σ : Sys) (c : Call) :
    σ.call (fun _ => true) c = some (σ.next c) ∨ σ.next c = σ := by
  unfold Sys.next; cases σ.call (fun _ => true) c <;> simp

/-- A call the contract allows from a reachable system returns, so the system after it is
reachable. -/
theorem Reach.next {σ : Sys} {c : Call} (hR : Reach InitOnce σ) (hc : InitOnce σ c) :
    Reach InitOnce (σ.next c) := by
  obtain ⟨σ', h, -⟩ := hR.sysInv.call hc (fun _ => true)
  exact .step _ c hR hc (by rw [Sys.next, h]; rfl)

/-- A `free(p)` the contract allows ends `p`. -/
theorem Reach.next_free {σ : Sys} {p : Nat} (hR : Reach InitOnce σ) (hc : InitOnce σ (.free p)) :
    (σ.next (.free p)).live = σ.live.erase p := by
  obtain ⟨σ', h, -⟩ := hR.sysInv.call hc (fun _ => true)
  obtain ⟨s', -, rfl⟩ := Option.map_eq_some'.1 h
  rw [Sys.next, h]; rfl

end SegMalloc.Run
