import SegMalloc.Reachable

/-! How the arena grows. The break is written only by `mem_sbrk`, which raises it, and
`mem_sbrk` is called only by `extend_heap` and, for the prologue words, by `mm_init`. Every
other write of `mm.c` is to a word of memory or a list head, and `heap_start` is written only by
`mm_init`. So the functions that do not extend the heap leave the arena and `heap_start` as they
were, whatever their arguments (`Steady`); `malloc`, `realloc` and `calloc` on an initialized
heap raise the break by nothing or by exactly the extension their request asks for (`Extends`);
and every call keeps the arena's base and never lowers the break (`Grows`). Two sample runs
close the module: `heldSys` holds two blocks, and `fragSys` has freed the first of them. -/
namespace SegMalloc.Growth
open Memory Header Block FreeList Coalesce Api Layout AllocSpec MallocSpec ApiSpec Run Reachable

open State

/-- `s'` has the arena and `heap_start` of `s`. -/
def Steady (s s' : State) : Prop := s'.lo = s.lo ∧ s'.brk = s.brk ∧ s'.heapStart = s.heapStart

/-- `s'` has the arena base and `heap_start` of `s`, and the same break or one `k` bytes
higher. -/
def Extends (s s' : State) (k : Nat) : Prop :=
  s'.lo = s.lo ∧ s'.heapStart = s.heapStart ∧ (s'.brk = s.brk ∨ s'.brk = s.brk + k)

/-- `s'` has the arena base of `s`, no lower break, and the same `heap_start` once it is set. -/
def Grows (s s' : State) : Prop :=
  s'.lo = s.lo ∧ s.brk ≤ s'.brk ∧ (s.heapStart ≠ 0 → s'.heapStart = s.heapStart)

section Relations

variable {s₁ s₂ s₃ : State} {k : Nat}

theorem Steady.refl (s : State) : Steady s s := ⟨rfl, rfl, rfl⟩

theorem Steady.trans (h₁ : Steady s₁ s₂) (h₂ : Steady s₂ s₃) : Steady s₁ s₃ :=
  ⟨h₂.1.trans h₁.1, h₂.2.1.trans h₁.2.1, h₂.2.2.trans h₁.2.2⟩

theorem Steady.extends (h : Steady s₁ s₂) (k : Nat) : Extends s₁ s₂ k := ⟨h.1, h.2.2, .inl h.2.1⟩

theorem Extends.steady (h₁ : Extends s₁ s₂ k) (h₂ : Steady s₂ s₃) : Extends s₁ s₃ k :=
  ⟨h₂.1.trans h₁.1, h₂.2.2.trans h₁.2.1, h₂.2.1 ▸ h₁.2.2⟩

theorem Extends.grows (h : Extends s₁ s₂ k) : Grows s₁ s₂ :=
  ⟨h.1, by rcases h.2.2 with e | e <;> omega, fun _ => h.2.1⟩

theorem Grows.refl (s : State) : Grows s s := ⟨rfl, le_rfl, fun _ => rfl⟩

theorem Grows.trans (h₁ : Grows s₁ s₂) (h₂ : Grows s₂ s₃) : Grows s₁ s₃ :=
  ⟨h₂.1.trans h₁.1, h₁.2.1.trans h₂.2.1, fun h => (h₂.2.2 (h₁.2.2 h ▸ h)).trans (h₁.2.2 h)⟩

theorem Grows.steady (h₁ : Grows s₁ s₂) (h₂ : Steady s₂ s₃) : Grows s₁ s₃ :=
  h₁.trans (h₂.extends 0).grows

end Relations

/-! ## The writers -/

section Writers

variable (s : State)

theorem steady_setWord (a : Nat) (w : UInt64) : Steady s (s.setWord a w) := Steady.refl s

theorem steady_setHead (i p : Nat) : Steady s (s.setHead i p) := Steady.refl s

theorem steady_writeBlock (x size : Nat) (al pa pm : Bool) :
    Steady s (writeBlock s x size al pa pm) :=
  ⟨writeBlock_lo .., writeBlock_brk .., writeBlock_heapStart ..⟩

theorem steady_updateBlock (x size : Nat) (al pa pm : Bool) :
    Steady s (updateBlock s x size al pa pm) := Steady.refl s

theorem steady_markAlloc (block : Nat) : Steady s (markAlloc s block) :=
  (steady_writeBlock ..).trans (steady_updateBlock ..)

theorem steady_clearNextFlags (block : Nat) : Steady s (clearNextFlags s block) := Steady.refl s

/-- The copy of `realloc` and the zeroing of `calloc`. -/
theorem steady_setMem (m : Mem) : Steady s { s with mem := m } := Steady.refl s

end Writers

/-! ## The lists -/

section ListOps

variable (s : State) (block : Nat)

theorem steady_insertToFreeList : Steady s (insertToFreeList s block) := by
  unfold insertToFreeList; dsimp only; split_ifs <;> exact Steady.refl s

theorem steady_deleteFromFreeList : Steady s (deleteFromFreeList s block) := by
  unfold deleteFromFreeList; dsimp only; split_ifs <;> exact Steady.refl s

theorem steady_insertToMiniFreeList : Steady s (insertToMiniFreeList s block) := by
  unfold insertToMiniFreeList; dsimp only; split_ifs <;> exact Steady.refl s

theorem steady_insertNormalOrMini : Steady s (insertNormalOrMini s block) := by
  unfold insertNormalOrMini
  split_ifs
  · exact steady_insertToMiniFreeList s block
  · exact steady_insertToFreeList s block

variable {s block} {s' : State}

theorem steady_deleteFromMiniFreeList (h : deleteFromMiniFreeList s block = some s') :
    Steady s s' := by
  unfold deleteFromMiniFreeList at h
  dsimp only at h
  split_ifs at h
  · cases h; exact Steady.refl s
  · cases h; exact Steady.refl s
  · cases h; exact Steady.refl s
  · obtain ⟨_, -, rfl⟩ := Option.map_eq_some'.1 h
    exact Steady.refl s

theorem steady_deleteNormalOrMini (h : deleteNormalOrMini s block = some s') : Steady s s' := by
  unfold deleteNormalOrMini at h
  split_ifs at h
  · exact steady_deleteFromMiniFreeList h
  · cases h; exact steady_deleteFromFreeList s block

end ListOps

/-! ## Coalescing, extension and splitting -/

section Blocks

variable {s s₁ : State}

/-- The end of each merging case of `coalesce_block`: the merged block written, listed, and the
flags after it cleared. -/
theorem steady_merge (h : Steady s s₁) (b size : Nat) (pa pm : Bool) :
    Steady s (clearNextFlags (insertNormalOrMini (writeBlock s₁ b size false pa pm) b) b) :=
  h.trans ((steady_writeBlock ..).trans ((steady_insertNormalOrMini ..).trans
    (steady_clearNextFlags ..)))

theorem steady_coalesceBlock {block : Nat} {r : State × Nat}
    (h : coalesceBlock s block = some r) : Steady s r.1 := by
  unfold coalesceBlock at h
  dsimp only at h
  split_ifs at h
  · cases h; exact steady_insertNormalOrMini s block
  all_goals
    obtain ⟨r', hr', rfl⟩ := Option.map_eq_some'.1 h
  · -- with the previous block
    obtain ⟨s₂, hs₂, rfl⟩ := Option.map_eq_some'.1 hr'
    exact steady_merge (steady_deleteNormalOrMini hs₂) ..
  · -- with the next block
    obtain ⟨s₂, hs₂, rfl⟩ := Option.map_eq_some'.1 hr'
    exact steady_merge (steady_deleteNormalOrMini hs₂) ..
  · -- with both
    obtain ⟨s₂, hs₂, hr''⟩ := Option.bind_eq_some.1 hr'
    obtain ⟨s₃, hs₃, rfl⟩ := Option.map_eq_some'.1 hr''
    exact steady_merge ((steady_deleteNormalOrMini hs₂).trans (steady_deleteNormalOrMini hs₃)) ..

theorem steady_splitBlock (block asize : Nat) : Steady s (splitBlock s block asize) := by
  unfold splitBlock
  dsimp only
  split_ifs
  · exact (steady_writeBlock ..).trans ((steady_writeBlock ..).trans
      ((steady_updateBlock ..).trans (steady_insertNormalOrMini ..)))
  · exact Steady.refl s

theorem memSbrk_state {ok : Nat → Bool} {incr : Nat} {r : State × Nat}
    (h : memSbrk ok s incr = some r) : r.1 = { s with brk := s.brk + incr } := by
  unfold memSbrk at h
  split_ifs at h
  cases h
  rfl

/-- `extend_heap(size)` raises the break by nothing, or by `size` rounded up to 16. -/
theorem extends_extendHeap {ok : Nat → Bool} {size : Nat} {r : State × Nat}
    (h : extendHeap ok s size = some r) : Extends s r.1 (roundUp size dsize) := by
  unfold extendHeap at h
  dsimp only at h
  split at h
  · cases h; exact (Steady.refl s).extends _
  · rename_i s₂ bp hsb
    obtain rfl : s₂ = _ := memSbrk_state hsb
    have g := (steady_writeBlock ..).trans
      ((Steady.refl _ : Steady _ (writeEpilogue _ _ _ _)).trans (steady_coalesceBlock h))
    exact ⟨g.1, g.2.2, .inr g.2.1⟩

end Blocks

/-! ## The interface -/

section Interface

variable {ok : Nat → Bool} {s : State}

theorem steady_free {p : Nat} {s' : State} (h : free s p = some s') : Steady s s' := by
  unfold free at h
  dsimp only at h
  split_ifs at h
  · cases h; exact Steady.refl s
  · obtain ⟨r, hr, rfl⟩ := Option.map_eq_some'.1 h
    exact (steady_writeBlock ..).trans ((steady_updateBlock ..).trans (steady_coalesceBlock hr))

/-- `malloc` on an initialized heap: at most one extension, of `max(asize, CHUNKSIZE)` bytes
rounded up to 16 for the adjusted size `asize`. -/
theorem extends_malloc {size : Nat} {r : State × Nat} (hst : s.heapStart ≠ 0)
    (h : malloc ok s size = some r) :
    Extends s r.1 (roundUp (Header.max (adjustSize size) chunksize) dsize) := by
  by_cases hsz : size = 0
  · rw [hsz, malloc_zero ok hst] at h; cases h; exact (Steady.refl s).extends _
  rw [malloc_eq ok s size hst hsz] at h
  obtain ⟨r₁, h₁, h₂⟩ := Option.bind_eq_some.1 h
  have g₁ : Extends s r₁.1 (roundUp (Header.max (adjustSize size) chunksize) dsize) := by
    split_ifs at h₁
    · exact extends_extendHeap h₁
    · cases h₁; exact (Steady.refl s).extends _
  split_ifs at h₂
  · cases h₂; exact g₁
  · obtain ⟨s₂, h₃, h₄⟩ := Option.bind_eq_some.1 h₂
    cases h₄
    exact g₁.steady ((steady_deleteNormalOrMini h₃).trans
      ((steady_markAlloc ..).trans (steady_splitBlock ..)))

/-- `mm_init` keeps the base and does not lower the break; when it reports success the heap is
initialized. -/
theorem mmInit_grows {r : State × Bool} (h : mmInit ok s = some r) :
    r.1.lo = s.lo ∧ s.brk ≤ r.1.brk ∧ (r.2 = true → r.1.heapStart ≠ 0) := by
  unfold mmInit at h
  dsimp only at h
  split at h
  · cases h; exact ⟨rfl, le_rfl, Bool.noConfusion⟩
  · rename_i s₁ start hsb
    obtain ⟨r', hr', rfl⟩ := Option.map_eq_some'.1 h
    obtain rfl : s₁ = _ := memSbrk_state hsb
    have g := extends_extendHeap hr'
    refine ⟨g.1, (Nat.le_add_right _ (2 * wsize)).trans g.grows.2.1, fun _ => ?_⟩
    rw [g.2.1]; simp only [wsize]; omega

/-- `malloc` on any heap: on an uninitialized one it runs `mm_init` first. -/
theorem grows_malloc {size : Nat} {r : State × Nat} (h : malloc ok s size = some r) :
    Grows s r.1 := by
  by_cases hst : s.heapStart = 0
  · obtain ⟨⟨s₁, b⟩, hinit⟩ : ∃ r₁, mmInit ok s = some r₁ := by
      cases hi : mmInit ok s with
      | none => unfold malloc at h; simp [hst, hi] at h
      | some r₁ => exact ⟨r₁, rfl⟩
    obtain ⟨hlo, hbrk, hst₁⟩ := mmInit_grows hinit
    rw [malloc_uninit ok size hst hinit hst₁] at h
    have g : Grows s s₁ := ⟨hlo, hbrk, fun h => absurd hst h⟩
    cases b
    · cases h; exact g
    · exact g.trans (extends_malloc (hst₁ rfl) h).grows
  · exact (extends_malloc hst h).grows

/-! `realloc` and `calloc` change the arena only through their `malloc`: the copy and the
zeroing write memory, and the `free` keeps it. So every relation that holds of each `malloc`
result and survives the functions that keep the arena holds of their results. -/

variable {R : State → State → Prop}

theorem realloc_of_malloc (hR : ∀ s, R s s) (hS : ∀ {s₁ s₂ s₃}, R s₁ s₂ → Steady s₂ s₃ → R s₁ s₃)
    {p n : Nat} (hm : ∀ {r}, malloc ok s n = some r → R s r.1) {r : State × Nat}
    (h : realloc ok s p n = some r) : R s r.1 := by
  by_cases hn : n = 0
  · rw [hn, realloc_zero] at h
    obtain ⟨s', h₁, h₂⟩ := Option.bind_eq_some.1 h
    cases h₂; exact hS (hR s) (steady_free h₁)
  by_cases hp : p = 0
  · rw [hp, realloc_null ok s hn] at h; exact hm h
  rw [realloc_eq ok s hp hn] at h
  obtain ⟨r₁, h₁, h₂⟩ := Option.bind_eq_some.1 h
  by_cases hr : r₁.2 = 0
  · rw [if_pos hr] at h₂
    rw [← Option.some.inj h₂]
    exact hm (r := r₁) h₁
  · rw [if_neg hr] at h₂
    obtain ⟨s₃, h₃, h₄⟩ := Option.bind_eq_some.1 h₂
    rw [← Option.some.inj h₄]
    dsimp only at h₃
    exact hS (hm h₁) ((steady_setMem ..).trans (steady_free h₃))

theorem calloc_of_malloc (hR : ∀ s, R s s) (hS : ∀ {s₁ s₂ s₃}, R s₁ s₂ → Steady s₂ s₃ → R s₁ s₃)
    {e n : Nat} (hm : ∀ {r}, malloc ok s (usize (e * n)) = some r → R s r.1) {r : State × Nat}
    (h : calloc ok s e n = some r) : R s r.1 := by
  unfold calloc at h
  simp only [pure, bind, Option.some_bind] at h
  split_ifs at h
  · rw [← Option.some.inj h]; exact hR s
  · rw [← Option.some.inj h]; exact hR s
  · obtain ⟨r₁, h₁, h₂⟩ := Option.bind_eq_some.1 h
    split_ifs at h₂ <;> rw [← Option.some.inj h₂]
    · exact hm (r := r₁) h₁
    · exact hS (hm h₁) (steady_setMem ..)

end Interface

/-- Every call on any heap other than `mm_init` keeps the arena's base, never lowers the break,
and keeps `heap_start` once it is set. -/
theorem grows_call {ok : Nat → Bool} {σ σ' : Sys} {c : Call} (hc : c ≠ .init)
    (h : σ.call ok c = some σ') : Grows σ.st σ'.st := by
  cases c with
  | init => exact absurd rfl hc
  | malloc n =>
    obtain ⟨r, hr, rfl⟩ := Option.map_eq_some'.1 h
    exact grows_malloc hr
  | free p =>
    obtain ⟨r, hr, rfl⟩ := Option.map_eq_some'.1 h
    exact (Grows.refl _).steady (steady_free hr)
  | realloc p n =>
    obtain ⟨r, hr, rfl⟩ := Option.map_eq_some'.1 h
    exact realloc_of_malloc Grows.refl Grows.steady grows_malloc hr
  | calloc e n =>
    obtain ⟨r, hr, rfl⟩ := Option.map_eq_some'.1 h
    exact calloc_of_malloc Grows.refl Grows.steady grows_malloc hr

/-- A call other than `mm_init` keeps `heap_start` once it is set. -/
theorem next_heapStart {σ : Sys} {c : Call} (hc : c ≠ .init) (hst : σ.st.heapStart ≠ 0) :
    (σ.next c).st.heapStart ≠ 0 := by
  rcases σ.next_eq c with h | h
  · rwa [(grows_call hc h).2.2 hst]
  · rwa [h]

/-- A `free` keeps the arena and `heap_start`. -/
theorem next_free_steady (σ : Sys) (p : Nat) : Steady σ.st (σ.next (.free p)).st := by
  rcases σ.next_eq (.free p) with h | h
  · obtain ⟨s', hs', e⟩ := Option.map_eq_some'.1 h
    rw [← e]; exact steady_free hs'
  · rw [h]; exact Steady.refl _

/-- Every call keeps the arena's base and never lowers its break. -/
theorem call_arena {ok : Nat → Bool} {σ σ' : Sys} {c : Call} (h : σ.call ok c = some σ') :
    σ'.st.lo = σ.st.lo ∧ σ.st.brk ≤ σ'.st.brk := by
  by_cases hc : c = .init
  · subst hc
    obtain ⟨r, hr, rfl⟩ := Option.map_eq_some'.1 h
    exact ⟨(mmInit_grows hr).1, (mmInit_grows hr).2.1⟩
  · exact ⟨(grows_call hc h).1, (grows_call hc h).2.1⟩

/-- A granted call keeps the arena's base. -/
theorem next_lo (σ : Sys) (c : Call) : (σ.next c).st.lo = σ.st.lo := by
  rcases σ.next_eq c with h | h
  · exact (call_arena h).1
  · rw [h]

/-! ## A fragmented heap -/

/-- After `mm_init`, `malloc(100)` and `malloc(1)`, every request granted: the client holds the
112-byte block at 8 and the 16-byte block at 120. -/
def heldSys : Sys := (initSys.next (.malloc 100)).next (.malloc 1)

theorem reach_heldSys : Reach InitOnce heldSys := by
  have h₁ : Reach InitOnce (initSys.next (.malloc 100)) :=
    reach_initSys.next ⟨show 100 ≤ 2 ^ 64 - 24 by decide, Call.noConfusion⟩
  exact h₁.next ⟨show 1 ≤ 2 ^ 64 - 24 by decide, Call.noConfusion⟩

theorem heldSys_free : InitOnce heldSys (.free 16) := ⟨.inr (by decide), Call.noConfusion⟩

theorem heldSys_lo : heldSys.st.lo % 16 = 0 := by
  rw [heldSys, next_lo, next_lo]; decide

/-- Then `free(16)`: the freed block of 112 bytes at 8 heads list 2, the 16-byte block at 120 is
held, and the rest of the chunk, 1920 bytes at 136, heads list 6. -/
def fragSys : Sys := heldSys.next (.free 16)

theorem reach_fragSys : Reach InitOnce fragSys := reach_heldSys.next heldSys_free

theorem fragSys_heapStart : fragSys.st.heapStart ≠ 0 := by
  unfold fragSys heldSys
  exact next_heapStart Call.noConfusion (next_heapStart Call.noConfusion
    (next_heapStart Call.noConfusion (by decide)))

theorem fragSys_live : fragSys.live = [128] := by
  rw [fragSys, reach_heldSys.next_free heldSys_free]; decide

end SegMalloc.Growth
