import SegMalloc.MallocSpec

/-! The public interface on the allocation table. `mm_init` builds the prologue, the
epilogue and one free chunk; `free` removes one entry of the table; `realloc` adds the new
block's entry, copies the old payload into it and removes the old entry; `calloc` zeroes
the new payload. Each keeps every other allocated payload byte for byte. -/
namespace SegMalloc.ApiSpec
open Memory Header Block Coalesce Api Layout Invariant CoalesceSpec FreeSpec AllocSpec Table
  MallocSpec

open State

/-! ## Code equations -/

/-- `malloc` on a heap that is not initialized runs `mm_init` first. -/
theorem malloc_uninit (ok : Nat → Bool) {s s₁ : State} {b : Bool} (size : Nat)
    (hst : s.heapStart = 0) (hinit : mmInit ok s = some (s₁, b))
    (hst₁ : b = true → s₁.heapStart ≠ 0) :
    malloc ok s size = if b then malloc ok s₁ size else some (s₁, 0) := by
  cases b
  · unfold malloc; simp [hst, hinit]
  · conv_lhs => unfold malloc
    conv_rhs => unfold malloc
    simp [hst, hinit, hst₁ rfl]

theorem malloc_zero (ok : Nat → Bool) {s : State} (hst : s.heapStart ≠ 0) :
    malloc ok s 0 = some (s, 0) := by
  unfold malloc; simp [hst]

theorem free_zero (s : State) : free s 0 = some s := by simp [free]

theorem realloc_eq (ok : Nat → Bool) (s : State) {p n : Nat} (hp : p ≠ 0) (hn : n ≠ 0) :
    realloc ok s p n = (malloc ok s n).bind fun r =>
      if r.2 = 0 then some (r.1, 0)
      else (free { r.1 with mem := (memcpy r.1.mem r.2 p
          (if n < getPayloadSize r.1 (payloadToHeader p) then n
            else getPayloadSize r.1 (payloadToHeader p))) } p).bind fun s₃ => some (s₃, r.2) := by
  unfold realloc
  simp only [hp, hn, if_false]
  rfl

theorem realloc_zero (ok : Nat → Bool) (s : State) (p : Nat) :
    realloc ok s p 0 = (free s p).bind fun s' => some (s', 0) := by
  unfold realloc; simp

theorem realloc_null (ok : Nat → Bool) (s : State) {n : Nat} (hn : n ≠ 0) :
    realloc ok s 0 n = malloc ok s n := by
  unfold realloc; simp [hn]

theorem calloc_eq (ok : Nat → Bool) (s : State) {e n : Nat} (he : e ≠ 0) (hlt : e * n < 2 ^ 64) :
    calloc ok s e n = (malloc ok s (e * n)).bind fun r =>
      if r.2 = 0 then some (r.1, 0)
      else some ({ r.1 with mem := memset r.1.mem r.2 0 (e * n) }, r.2) := by
  unfold calloc
  simp only [he, usize_of_lt hlt, Nat.mul_div_cancel_left n (Nat.pos_of_ne_zero he), ne_eq,
    not_true_eq_false, if_false]
  rfl

/-! ## `mm_init` -/

section Init

variable {s : State}

/-- `mm_init` on a heap that is not initialized, when the arena grants the prologue and
epilogue words: it writes them at the old break, sets `heap_start` after the prologue, and
extends the heap by a chunk. -/
theorem mmInit_prologue (ok : Nat → Bool) (hlo : s.brk = s.lo)
    (hok : ok 16 = true ∧ s.brk + 16 ≤ 2 ^ 64) :
    ∃ s₁, mmInit ok s = (extendHeap ok s₁ chunksize).map (fun r => (r.1, decide (r.2 ≠ 0))) ∧
      HeapInv s₁ ⟨[], fun _ => []⟩ ∧ s₁.lo = s.lo ∧ s₁.brk = s.brk + 16 ∧
      s₁.heapStart = s.brk + 8 ∧ Agree (fun y => y < s.brk ∨ s.brk + 16 ≤ y) s.mem s₁.mem := by
  let s₁ : State :=
    { mem := storeWord (storeWord s.mem s.brk (pack 0 true true false)) (s.brk + 8)
        (pack 0 true true false)
      lo := s.lo
      brk := s.brk + 16
      heapStart := s.brk + 8
      segList := fun i => if i < segListNum then 0 else s.segList i }
  refine ⟨s₁, ?_, ?_, rfl, rfl, rfl, fun y hy => ?_⟩
  · rw [mmInit]; dsimp only
    rw [memSbrk, if_pos (show ok (2 * wsize) = true ∧ s.brk + 2 * wsize ≤ 2 ^ 64 from hok)]
    rfl
  · refine ⟨⟨by simp [s₁, hlo], rfl, hok.2, by simp [SizesOk], ?_⟩, ?_,
      ⟨fun i hi => by simp [s₁, hi], trivial, fun _ _ => trivial, by simp, by simp⟩,
      by simp, List.chain'_nil⟩
    · show loadWord (storeWord (storeWord s.mem s.brk _) (s.brk + 8) _) (s.brk + 8 - 8) = _
      rw [Nat.add_sub_cancel, loadWord_storeWord_of_disjoint _ _ (by omega),
        loadWord_storeWord_same]
    · exact loadWord_storeWord_same _ _ _
  · show storeWord (storeWord s.mem s.brk _) (s.brk + 8) _ y = s.mem y
    rw [storeWord_apply_of_lt _ (by omega), storeWord_apply_of_lt _ (by omega)]

/-- `mm_init` on a heap that is not initialized: either the arena refuses the first words
and the heap stays uninitialized with its list heads cleared, or the heap holds no allocated block, and one free chunk
of `CHUNKSIZE` bytes when the function reports success. -/
theorem mmInit_spec (ok : Nat → Bool) (hst : s.heapStart = 0) (hlo : s.brk = s.lo) :
    ∃ s' b, mmInit ok s = some (s', b) ∧ s'.lo = s.lo ∧
      ((s'.heapStart = 0 ∧ s'.brk = s'.lo ∧ (∀ i < segListNum, s'.segList i = 0) ∧ b = false) ∨
        (s'.heapStart ≠ 0 ∧ ∃ h', HeapInv s' h' ∧ allocs s'.heapStart h'.blocks = [] ∧
          (b = true → h'.blocks = [⟨chunksize, false⟩]))) := by
  by_cases hok : ok 16 = true ∧ s.brk + 16 ≤ 2 ^ 64
  · -- the arena grants the prologue and epilogue words
    obtain ⟨s₁, hcode, hinv₁, hlo₁, -, hst₁, -⟩ := mmInit_prologue ok hlo hok
    rcases extendHeap_spec ok hinv₁ (show chunksize % 16 = 0 by decide) (by decide) (by decide)
      with ⟨-, hext⟩ | ⟨-, -, s', h', hext, hc⟩
    · exact ⟨s₁, false, by rw [hcode, hext]; simp, hlo₁, .inr ⟨by omega, _, hinv₁, rfl,
        by simp⟩⟩
    · have hbl : h'.blocks = [⟨chunksize, false⟩] := by
        rw [hc.blocks]; rfl
      refine ⟨s', true, by rw [hcode, hext]; simp [hst₁], hc.lo.trans hlo₁, .inr ⟨?_, h', hc.inv,
        by rw [hbl]; rfl, fun _ => hbl⟩⟩
      rw [hc.heapStart]; simp only; omega
  · refine ⟨{ s with segList := fun i => if i < segListNum then 0 else s.segList i }, false, ?_,
      rfl, .inl ⟨hst, hlo, fun i hi => if_pos hi, rfl⟩⟩
    rw [mmInit]; dsimp only
    rw [memSbrk, if_neg (show ¬ (ok (2 * wsize) = true ∧ s.brk + 2 * wsize ≤ 2 ^ 64) from hok)]

end Init

/-! ## `free` -/

section Free

variable {s : State} {h : Heap} {z n : Nat}

/-- `free` of an allocated block removes its entry from the table and keeps every other
allocated payload. -/
theorem free_table (hinv : HeapInv s h) (hq : (z, n) ∈ allocs s.heapStart h.blocks) :
    ∃ s' h', free s (z + 8) = some s' ∧ HeapInv s' h' ∧
      ((z, n) :: allocs s.heapStart h'.blocks).Perm (allocs s.heapStart h.blocks) ∧
      s'.lo = s.lo ∧ s'.brk = s.brk ∧ s'.heapStart = s.heapStart ∧
      Agree (AllocBody s.heapStart h'.blocks) s.mem s'.mem := by
  obtain ⟨pre, post, hbs, rfl⟩ := mem_allocs.1 hq
  obtain ⟨s', h', hfree, hc⟩ := free_spec hinv hbs rfl
  have htab : allocs s.heapStart h'.blocks =
      allocs s.heapStart (pre ++ ⟨n, false⟩ :: post) := by
    rw [hc.blocks, allocs_coalesceBlocks _ _ _ rfl]
  have hok' := hc.inv.arena.sizes
  have hokm : SizesOk (pre ++ ⟨n, false⟩ :: post) := by
    have := hinv.arena.sizes
    rw [hbs, sizesOk_append, sizesOk_cons] at this
    exact sizesOk_append.2 ⟨this.1, sizesOk_cons.2 this.2⟩
  refine ⟨s', h', hfree, hc.inv, ?_, hc.lo, hc.brk, hc.heapStart, hc.frame.mono fun y hy => ?_⟩
  · rw [htab, hbs]; simpa using List.perm_middle.symm
  · -- outside the merged block: below its start or past the header after it
    have hF : BlockAt s.heapStart h'.blocks (s.heapStart + span (absorbPrev pre).1)
        ⟨mergedSize pre ⟨n, false⟩ post, false⟩ := by
      rw [hc.blocks]; exact blockAt_here _ _ _ _
    have hsp := (absorbPrev_allocs s.heapStart pre).2
    have hmid : AllocBody s.heapStart (pre ++ ⟨n, false⟩ :: post) y := by
      rwa [AllocBody, ← htab]
    refine ⟨hmid.outFree hokm, ?_⟩
    rcases hy.apart hok' hF rfl with h | h
    · exact .inl (by simp only [mergedSize] at h ⊢; omega)
    · exact .inr (by simp only [mergedSize] at h ⊢; omega)

end Free

/-! ## `realloc` and `calloc` -/

section Copy

variable {ok : Nat → Bool} {s s₁ : State} {h h₁ : Heap} {p n q S T : Nat}

/-- `memcpy` into the payload of an allocated block keeps the invariant. -/
theorem memcpy_inv (hinv : HeapInv s h) (hq : (q - 8, T) ∈ allocs s.heapStart h.blocks)
    (h8 : 8 ≤ q) (src : Nat) {k : Nat} (hk : q + k ≤ q - 8 + T) :
    HeapInv { s with mem := memcpy s.mem q src k } h :=
  heapInv_of_payload hinv fun y hy => by
    simp only [memcpy]
    rw [if_neg fun h => hy ⟨_, hq, by simp only; omega, by simp only; omega⟩]

theorem memset_inv (hinv : HeapInv s h) (hq : (q - 8, T) ∈ allocs s.heapStart h.blocks)
    (h8 : 8 ≤ q) {c : UInt8} {k : Nat} (hk : q + k ≤ q - 8 + T) :
    HeapInv { s with mem := memset s.mem q c k } h :=
  heapInv_of_payload hinv fun y hy => by
    simp only [memset]
    rw [if_neg fun h => hy ⟨_, hq, by simp only; omega, by simp only; omega⟩]

/-- `realloc` of the live `p`, whose block has `S` bytes, to `n ≥ 1` bytes, when the `malloc`
inside it returns the block `q`: the new entry replaces the old one, the first
`min n (S - 8)` payload bytes are copied, and every other payload is kept. -/
theorem realloc_spec (hinv : HeapInv s h) (hp : (p - 8, S) ∈ allocs s.heapStart h.blocks)
    (h8 : 8 ≤ p) (hn : n ≠ 0) (hm : malloc ok s n = some (s₁, q)) (hq : q ≠ 0)
    (hA : Allocated s h (adjustSize n) T s₁ h₁ q) (hfit : n + 8 ≤ adjustSize n) :
    ∃ s' h', realloc ok s p n = some (s', q) ∧ HeapInv s' h' ∧
      ((p - 8, S) :: allocs s.heapStart h'.blocks).Perm
        ((q - 8, adjustSize n) :: allocs s.heapStart h.blocks) ∧
      s'.lo = s.lo ∧ s'.heapStart = s.heapStart ∧
      (∀ e ∈ allocs s.heapStart h.blocks, e ≠ (p - 8, S) →
        ∀ y, e.1 + 8 ≤ y → y < e.1 + e.2 → s'.mem y = s.mem y) ∧
      ∀ i < min n (S - 8), s'.mem (q + i) = s.mem (p + i) := by
  have hok := hinv.arena.sizes
  have hinv₁ := hA.inv
  have hst₁ := hA.heapStart
  have hok₁ := hinv₁.arena.sizes
  -- the new entry is fresh, and the old one survives the `malloc`
  have hnd : ((q - 8, adjustSize n) :: allocs s.heapStart h.blocks).Nodup :=
    hA.table.nodup_iff.1 (allocs_nodup _ hok₁)
  have hq₁ : (q - 8, adjustSize n) ∈ allocs s.heapStart h₁.blocks :=
    hA.table.symm.subset (List.mem_cons_self _ _)
  have hp₁ : (p - 8, S) ∈ allocs s.heapStart h₁.blocks :=
    hA.table.symm.subset (List.mem_cons_of_mem _ hp)
  have hqp : (q - 8, adjustSize n) ≠ (p - 8, S) := fun h => (List.nodup_cons.1 hnd).1 (h ▸ hp)
  rw [← hst₁] at hq₁ hp₁
  have hq8 : 8 ≤ q := by
    have := (hinv₁.arena.blk (mem_allocs.1 hq₁)).2.2.1; simp only at this; omega
  -- the copy size is the smaller of `n` and the old payload
  have hsz : getSize s₁ (payloadToHeader p) = S := (hinv₁.read (mem_allocs.1 hp₁)).1
  have h16 := (hok _ (blockAt_mem (mem_allocs.1 hp))).2
  have hS : S < 2 ^ 64 := by
    have h₁ := (hinv.arena.blk (mem_allocs.1 hp)).2.2.2
    have h₂ := hinv.arena.brk_le
    simp only at h₁; omega
  simp only at h16
  have hcopy : (if n < getPayloadSize s₁ (payloadToHeader p) then n
      else getPayloadSize s₁ (payloadToHeader p)) = min n (S - 8) := by
    rw [getPayloadSize, hsz, usub_of_le (by unfold wsize; omega) hS]
    unfold wsize; split_ifs <;> omega
  have hinv₂ := memcpy_inv hinv₁ hq₁ hq8 p
    (show q + min n (S - 8) ≤ q - 8 + adjustSize n by omega)
  obtain ⟨s', h', hfree, hinv', htab, hlo', -, hst', hag'⟩ := free_table hinv₂ hp₁
  rw [Nat.sub_add_cancel h8] at hfree
  simp only at htab hst' hag'
  rw [hst₁] at htab hag' hq₁
  have hcode : realloc ok s p n = some (s', q) := by
    rw [realloc_eq ok s (by omega) hn, hm, Option.some_bind]
    dsimp only
    rw [if_neg hq, hcopy, hfree]
    rfl
  refine ⟨s', h', hcode, hinv', htab.trans hA.table, hlo'.trans hA.lo, hst'.trans hst₁, ?_, ?_⟩
  · -- another payload: kept by `malloc`, outside the copy, kept by `free`
    intro e he hne y hy₁ hy₂
    have he₁ : e ∈ allocs s.heapStart h₁.blocks :=
      hA.table.symm.subset (List.mem_cons_of_mem _ he)
    have he' : e ∈ allocs s.heapStart h'.blocks :=
      (List.mem_cons.1 (htab.symm.subset he₁)).resolve_left hne
    have hqe : (q - 8, adjustSize n) ≠ e := fun h => (List.nodup_cons.1 hnd).1 (h ▸ he)
    have hap := allocs_apart hok₁ hq₁ he₁ hqe
    simp only at hap
    rw [hag' y ⟨e, he', hy₁, hy₂⟩]
    show memcpy s₁.mem q p _ y = s.mem y
    rw [memcpy, if_neg (by omega)]
    exact hA.frame y ⟨e, he, hy₁, hy₂⟩
  · -- the copied bytes
    intro i hi
    have hq' : (q - 8, adjustSize n) ∈ allocs s.heapStart h'.blocks :=
      (List.mem_cons.1 (htab.symm.subset hq₁)).resolve_left hqp
    rw [hag' (q + i) ⟨_, hq', by simp only; omega, by simp only; omega⟩]
    show memcpy s₁.mem q p _ (q + i) = s.mem (p + i)
    rw [memcpy, if_pos (by omega), Nat.add_sub_cancel_left]
    exact hA.frame (p + i) ⟨_, hp, by simp only; omega, by simp only; omega⟩

/-- `calloc` of `e · n` bytes, when the `malloc` inside it returns the block `q`: the new
payload is zeroed over the request and every other payload is kept. -/
theorem calloc_spec {e : Nat} (he : e ≠ 0) (hlt : e * n < 2 ^ 64)
    (hm : malloc ok s (e * n) = some (s₁, q)) (hq : q ≠ 0)
    (hA : Allocated s h (adjustSize (e * n)) T s₁ h₁ q) (hfit : e * n + 8 ≤ adjustSize (e * n)) :
    ∃ s', calloc ok s e n = some (s', q) ∧ HeapInv s' h₁ ∧ s'.lo = s.lo ∧
      s'.heapStart = s.heapStart ∧ s'.brk = s₁.brk ∧
      Agree (AllocBody s.heapStart h.blocks) s.mem s'.mem ∧
      ∀ i < e * n, s'.mem (q + i) = 0 := by
  have hinv₁ := hA.inv
  have hok₁ := hinv₁.arena.sizes
  have hnd : ((q - 8, adjustSize (e * n)) :: allocs s.heapStart h.blocks).Nodup :=
    hA.table.nodup_iff.1 (allocs_nodup _ hok₁)
  have hq₁ : (q - 8, adjustSize (e * n)) ∈ allocs s.heapStart h₁.blocks :=
    hA.table.symm.subset (List.mem_cons_self _ _)
  have hq₁' : (q - 8, adjustSize (e * n)) ∈ allocs s₁.heapStart h₁.blocks := by
    rw [hA.heapStart]; exact hq₁
  have hq8 : 8 ≤ q := by
    have := (hinv₁.arena.blk (mem_allocs.1 hq₁')).2.2.1; simp only at this; omega
  have hcode : calloc ok s e n = some ({ s₁ with mem := memset s₁.mem q 0 (e * n) }, q) := by
    rw [calloc_eq ok s he hlt, hm, Option.some_bind]
    dsimp only
    rw [if_neg hq]
  refine ⟨_, hcode, memset_inv hinv₁ hq₁' hq8 (by omega), hA.lo, hA.heapStart, rfl,
    fun y hy => ?_, fun i hi => by simp only [memset]; rw [if_pos (by omega)]⟩
  -- an old payload lies apart from the new block
  obtain ⟨f, hf, hy₁, hy₂⟩ := hy
  have hf₁ : f ∈ allocs s.heapStart h₁.blocks := hA.table.symm.subset (List.mem_cons_of_mem _ hf)
  have hap := allocs_apart hok₁ hq₁ hf₁ fun h => (List.nodup_cons.1 hnd).1 (h ▸ hf)
  simp only at hap
  show memset s₁.mem q 0 _ y = s.mem y
  rw [memset, if_neg (by omega)]
  exact hA.frame y ⟨f, hf, hy₁, hy₂⟩

end Copy

end SegMalloc.ApiSpec
