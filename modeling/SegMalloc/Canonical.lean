import SegMalloc.Calls
import SegMalloc.Undo

/-! The heap is determined by its allocated blocks. No two neighbours of the walk are free, so
between two allocated blocks, and between the last one and the epilogue, lies one free block or
none: the walk is rebuilt from the allocation table and the epilogue's address alone (`fill`).
So two heaps with one `heap_start`, one break and one table, in any order, have one walk, and
lists with the same blocks. The heap a run of `free`s leaves depends on which blocks it freed,
not on the order: `coalesce_block` leaves the canonical walk after every call. -/
namespace SegMalloc.Canonical
open Block Api Layout Invariant Table ApiSpec Run Reachable Calls Growth Undo

/-- The walk from `a` to the epilogue at `e` with the allocated blocks of `tab`, each gap one
free block. -/
def fill (a e : Nat) : List (Nat × Nat) → List Blk
  | [] => if a < e then [⟨e - a, false⟩] else []
  | (z, n) :: tab => (if a < z then [⟨z - a, false⟩] else []) ++ ⟨n, true⟩ :: fill (z + n) e tab

example : fill 8 72 [(24, 32)] = [⟨16, false⟩, ⟨32, true⟩, ⟨16, false⟩] := by decide

section Fill

variable {a : Nat} {b : Blk} {t : List Blk}

/-- The first block of a walk whose free blocks are followed by an allocated block or the
end. -/
theorem fill_cons (hb : 0 < b.size) (hc : ∀ c ∈ t.head?, NotBothFree b c) :
    fill a (a + span (b :: t)) (allocs a (b :: t)) =
      b :: fill (a + b.size) (a + b.size + span t) (allocs (a + b.size) t) := by
  obtain ⟨S, al⟩ := b
  cases al with
  | true => simp [fill, Nat.add_assoc]
  | false =>
    -- a free block is the gap before the next allocated block, or before the end
    rcases t with _ | ⟨⟨T, cl⟩, u⟩
    · simp [fill, hb]
    · obtain rfl : cl = true := (hc _ rfl).resolve_left Bool.false_ne_true
      simp [fill, hb, Nat.add_assoc]

/-- A walk with no two free neighbours is rebuilt from its allocated blocks and its end. -/
theorem fill_allocs {bs : List Blk} (hok : SizesOk bs) (hc : bs.Chain' NotBothFree) :
    fill a (a + span bs) (allocs a bs) = bs := by
  induction bs generalizing a with
  | nil => simp [fill]
  | cons b t ih =>
    have hb : 0 < b.size := by have := (hok b (List.mem_cons_self _ _)).2; omega
    rw [fill_cons hb (List.chain'_cons'.1 hc).1,
      ih (fun c hc' => hok c (List.mem_cons_of_mem _ hc')) hc.tail]

end Fill

/-- Two tables that are permutations of each other are equal: both are sorted by address. -/
theorem allocs_eq_of_perm {a a' : Nat} {bs bs' : List Blk}
    (h : (allocs a' bs').Perm (allocs a bs)) : allocs a' bs' = allocs a bs :=
  haveI : IsAntisymm (Nat × Nat) fun p q => p.1 + p.2 ≤ q.1 :=
    ⟨fun p q h₁ h₂ => Prod.ext (by omega) (by omega)⟩
  List.eq_of_perm_of_sorted h (allocs_sorted a' bs') (allocs_sorted a bs)

section Canonical

variable {s s' : State} {h h' : Heap}

/-- The walk of a heap is the one `fill` builds from its table, up to the epilogue: one walk
per `heap_start`, break and table, and so one set of list members. -/
theorem blocks_canonical (hinv : HeapInv s h) (hinv' : HeapInv s' h')
    (hst : s'.heapStart = s.heapStart) (hbrk : s'.brk = s.brk)
    (htab : (allocs s'.heapStart h'.blocks).Perm (allocs s.heapStart h.blocks)) :
    h'.blocks = h.blocks ∧ ∀ i, (h'.bins i).Perm (h.bins i) := by
  have hspan : span h'.blocks = span h.blocks := by
    have := hinv.arena.brk; have := hinv'.arena.brk; omega
  have hb : h'.blocks = h.blocks :=
    calc h'.blocks
        = fill s'.heapStart (s'.heapStart + span h'.blocks) (allocs s'.heapStart h'.blocks) :=
          (fill_allocs hinv'.arena.sizes hinv'.coalesced).symm
      _ = fill s.heapStart (s.heapStart + span h.blocks) (allocs s.heapStart h.blocks) := by
          rw [allocs_eq_of_perm htab, hst, hspan]
      _ = h.blocks := fill_allocs hinv.arena.sizes hinv.coalesced
  exact ⟨hb, bins_perm hinv hinv' hst hb⟩

/-- Two states satisfying the heap invariant with one `heap_start`, one break and one
allocation table, in any order, have one walk, and every list holds the same blocks in both. -/
theorem heap_canonical (hinv : HeapInv s h) (hinv' : HeapInv s' h')
    (hst : s'.heapStart = s.heapStart) (hbrk : s'.brk = s.brk)
    (htab : (allocs s'.heapStart h'.blocks).Perm (allocs s.heapStart h.blocks)) :
    h'.blocks = h.blocks ∧ ∀ i, (h'.bins i).Perm (h.bins i) :=
  blocks_canonical hinv hinv' hst hbrk htab

end Canonical

/-- After `mm_init`, `malloc(1)` and `free(16)`: the freed block merged back into the chunk. -/
def freedSys : Sys := mallocSys.next (.free 16)

/-- `mm_init` alone, against `mm_init`, `malloc(1)` and `free(16)`: two runs that hold no block
and whose memories differ leave one walk, a single free chunk. -/
theorem heap_canonical_freedSys : ∃ h h', HeapInv initSys.st h ∧ HeapInv freedSys.st h' ∧
    freedSys.st.heapStart = initSys.st.heapStart ∧ freedSys.st.brk = initSys.st.brk ∧
    (allocs freedSys.st.heapStart h'.blocks).Perm (allocs initSys.st.heapStart h.blocks) ∧
    h'.blocks = h.blocks ∧ ∀ i, (h'.bins i).Perm (h.bins i) := by
  have hc : InitOnce mallocSys (.free 16) := ⟨.inr (List.mem_singleton_self _), Call.noConfusion⟩
  have hR : Reach InitOnce freedSys := reach_mallocSys.next hc
  have hg := next_free_steady mallocSys 16
  have hst : freedSys.st.heapStart = initSys.st.heapStart := hg.2.2.trans (by decide)
  have hbrk : freedSys.st.brk = initSys.st.brk := hg.2.1.trans (by decide)
  rcases reach_initSys.sysInv with ⟨hU, -⟩ | ⟨-, h, hinv, hl⟩
  · exact absurd hU.1 (by decide)
  rcases hR.sysInv with ⟨hU, -⟩ | ⟨-, h', hinv', hl'⟩
  · exact absurd hU.1 (by rw [hst]; decide)
  -- neither run holds a block, so both tables are empty
  have hfree : freedSys.live = [] := reach_mallocSys.next_free hc
  have e : allocs initSys.st.heapStart h.blocks = [] := by
    simpa [payloads] using List.nil_perm.1 (show [].Perm _ from hl)
  have e' : allocs freedSys.st.heapStart h'.blocks = [] := by
    rw [hfree] at hl'
    simpa [payloads] using List.nil_perm.1 hl'
  have htab : (allocs freedSys.st.heapStart h'.blocks).Perm (allocs initSys.st.heapStart h.blocks) :=
    by rw [e, e']
  exact ⟨h, h', hinv, hinv', hst, hbrk, htab, heap_canonical hinv hinv' hst hbrk htab⟩

section Frees

variable (ok : Nat → Bool) (E : Nat → Nat)

/-- A run of `free`s of distinct allocated blocks, with `E` giving their sizes, returns, keeps
the break and `heap_start`, ends the freed pointers, and removes exactly their entries from the
table. -/
theorem run_frees : ∀ {ps : List Nat} {σ : Sys} {h : Heap}, HeapInv σ.st h → ps.Nodup →
    (∀ p ∈ ps, (p - 8, E p) ∈ allocs σ.st.heapStart h.blocks ∧ 8 ≤ p) →
    ∃ σ' h', σ.run ok (ps.map .free) = some σ' ∧ HeapInv σ'.st h' ∧ σ'.st.brk = σ.st.brk ∧
      σ'.st.heapStart = σ.st.heapStart ∧ σ'.live = ps.foldl List.erase σ.live ∧
      (ps.map (fun p => (p - 8, E p)) ++ allocs σ.st.heapStart h'.blocks).Perm
        (allocs σ.st.heapStart h.blocks)
  | [], σ, h, hinv, _, _ => ⟨σ, h, rfl, hinv, rfl, rfl, rfl, List.Perm.refl _⟩
  | p :: ps, σ, h, hinv, hnd, hps => by
    obtain ⟨hp, hp8⟩ := hps p (List.mem_cons_self _ _)
    obtain ⟨s₁, h₁, hf, hinv₁, hperm₁, -, hbrk₁, hst₁, -⟩ := free_table hinv hp
    rw [Nat.sub_add_cancel hp8] at hf
    -- the blocks still to free keep their entries
    have hps₁ : ∀ q ∈ ps, (q - 8, E q) ∈ allocs s₁.heapStart h₁.blocks ∧ 8 ≤ q := fun q hq => by
      obtain ⟨hq', hq8⟩ := hps q (List.mem_cons_of_mem _ hq)
      have hne : (q - 8, E q) ≠ (p - 8, E p) := fun he => (List.nodup_cons.1 hnd).1 (by
        have := congrArg Prod.fst he
        simp only at this
        rwa [show q = p by omega] at hq)
      exact ⟨hst₁ ▸ (List.mem_cons.1 (hperm₁.symm.subset hq')).resolve_left hne, hq8⟩
    obtain ⟨σ', h', hrun, hinv', hbrk', hst', hlive', hperm'⟩ :=
      run_frees (σ := ⟨s₁, σ.live.erase p⟩) hinv₁ (List.nodup_cons.1 hnd).2 hps₁
    simp only [hst₁] at hperm'
    refine ⟨σ', h', ?_, hinv', hbrk'.trans hbrk₁, hst'.trans hst₁, hlive',
      (hperm'.cons _).trans hperm₁⟩
    simp only [List.map_cons, Sys.run, Sys.call, hf, Option.map_some', Option.some_bind]
    exact hrun

end Frees

/-- Erasing every element of a list from it, one by one, leaves nothing. -/
theorem foldl_erase_self : ∀ l : List Nat, l.foldl List.erase l = []
  | [] => rfl
  | x :: l => by rw [List.foldl_cons, List.erase_cons_head, foldl_erase_self l]

/-- In every reachable system with the heap initialized, freeing distinct held pointers in any
two orders returns both times, and leaves the same break, the same held pointers, the same walk
from `heap_start`, and lists with the same blocks. -/
theorem free_perm_reach (ok : Nat → Bool) {σ : Sys} {ps ps' : List Nat} (hR : Reach InitOnce σ)
    (hst : σ.st.heapStart ≠ 0) (hnd : ps.Nodup) (hps : ∀ p ∈ ps, p ∈ σ.live)
    (hperm : ps'.Perm ps) :
    ∃ σ₁ σ₂, σ.run ok (ps.map .free) = some σ₁ ∧ σ.run ok (ps'.map .free) = some σ₂ ∧
      σ₂.st.brk = σ₁.st.brk ∧ σ₂.live = σ₁.live ∧ ∃ h₁ h₂, HeapInv σ₁.st h₁ ∧
        HeapInv σ₂.st h₂ ∧ h₂.blocks = h₁.blocks ∧ ∀ i, (h₂.bins i).Perm (h₁.bins i) := by
  rcases hR.sysInv with ⟨hU, -⟩ | hL
  · exact absurd hU.1 hst
  obtain ⟨h, hinv, hE, -⟩ := hL.table
  replace hE := fun p hp => hE p (hps p hp)
  obtain ⟨σ₁, h₁, hrun₁, hinv₁, hbrk₁, hst₁, hlive₁, hperm₁⟩ := run_frees ok _ hinv hnd hE
  obtain ⟨σ₂, h₂, hrun₂, hinv₂, hbrk₂, hst₂, hlive₂, hperm₂⟩ :=
    run_frees ok _ hinv (hperm.nodup_iff.2 hnd) fun p hp => hE p (hperm.subset hp)
  -- both runs remove the same entries, so the tables they leave differ only in order
  have htab : (allocs σ₂.st.heapStart h₂.blocks).Perm (allocs σ₁.st.heapStart h₁.blocks) := by
    rw [hst₁, hst₂]
    exact (List.perm_append_left_iff _).1
      (((hperm.map _).append_right _).symm.trans (hperm₂.trans hperm₁.symm))
  obtain ⟨hb, hbins⟩ :=
    blocks_canonical hinv₁ hinv₂ (hst₂.trans hst₁.symm) (hbrk₂.trans hbrk₁.symm) htab
  refine ⟨σ₁, σ₂, hrun₁, hrun₂, hbrk₂.trans hbrk₁.symm, ?_, h₁, h₂, hinv₁, hinv₂, hb, hbins⟩
  rw [hlive₁, hlive₂]
  exact hperm.foldl_eq' (fun _ _ _ _ l => List.erase_comm _ _ l) _

/-- After `mm_init` and two `malloc(1)`: freeing both pointers in either order. -/
theorem free_perm_twoSys : Reach InitOnce twoSys ∧ twoSys.st.heapStart ≠ 0 ∧ [32, 16].Nodup ∧
    (∀ p ∈ [32, 16], p ∈ twoSys.live) ∧ [16, 32].Perm [32, 16] ∧
    ∃ σ₁ σ₂, twoSys.run (fun _ => true) ([32, 16].map .free) = some σ₁ ∧
      twoSys.run (fun _ => true) ([16, 32].map .free) = some σ₂ ∧
      σ₂.st.brk = σ₁.st.brk ∧ σ₂.live = σ₁.live ∧ ∃ h₁ h₂, HeapInv σ₁.st h₁ ∧
        HeapInv σ₂.st h₂ ∧ h₂.blocks = h₁.blocks ∧ ∀ i, (h₂.bins i).Perm (h₁.bins i) :=
  have hR : Reach InitOnce twoSys := .step _ (.malloc 1) reach_mallocSys
    ⟨show 1 ≤ 2 ^ 64 - 24 by decide, Call.noConfusion⟩ twoSys_call
  have hst : twoSys.st.heapStart ≠ 0 := by
    rw [(grows_call Call.noConfusion twoSys_call).2.2 (by decide)]; decide
  have hnd : [32, 16].Nodup := by decide
  have hps : ∀ p ∈ [32, 16], p ∈ twoSys.live := fun _ hp => hp
  have hperm : [16, 32].Perm [32, 16] := List.Perm.swap _ _ _
  ⟨hR, hst, hnd, hps, hperm, free_perm_reach _ hR hst hnd hps hperm⟩

/-- In every reachable system with the heap initialized, freeing every held pointer, in any
order, returns every time and leaves no fragment: the break as it was, no pointer held, and the
walk from `heap_start` one free block up to the epilogue, or none when the heap has no bytes. -/
theorem free_all_reach (ok : Nat → Bool) {σ : Sys} {ps : List Nat} (hR : Reach InitOnce σ)
    (hst : σ.st.heapStart ≠ 0) (hps : ps.Perm σ.live) :
    ∃ σ', σ.run ok (ps.map .free) = some σ' ∧ σ'.live = [] ∧ σ'.st.brk = σ.st.brk ∧
      ∃ h', HeapInv σ'.st h' ∧ h'.blocks = if σ.st.heapStart + 8 < σ.st.brk then
        [⟨σ.st.brk - 8 - σ.st.heapStart, false⟩] else [] := by
  rcases hR.sysInv with ⟨hU, -⟩ | hL
  · exact absurd hU.1 hst
  obtain ⟨h, hinv, hE, htab⟩ := hL.table
  have hnd : ps.Nodup :=
    hps.nodup_iff.2 ((htab.nodup_iff.2 (allocs_nodup _ hinv.arena.sizes)).of_map _)
  obtain ⟨σ', h', hrun, hinv', hbrk', hst', hlive', hperm'⟩ :=
    run_frees ok _ hinv hnd fun p hp => hE p (hps.subset hp)
  -- the run removes every entry of the table
  have hnil : allocs σ.st.heapStart h'.blocks = [] := by
    simpa using (hperm'.trans ((hps.map _).trans htab).symm).length_eq
  refine ⟨σ', hrun, by rw [hlive', hps.foldl_eq' (fun _ _ _ _ l => List.erase_comm _ _ l),
    foldl_erase_self], hbrk', h', hinv', ?_⟩
  -- so the walk is the one `fill` builds from no allocated block
  have hend : σ'.st.heapStart + span h'.blocks = σ.st.brk - 8 := by
    have := hinv'.arena.brk; omega
  rw [← fill_allocs (a := σ'.st.heapStart) hinv'.arena.sizes hinv'.coalesced, hend, hst', hnil]
  simp only [fill]
  split_ifs <;> first | rfl | omega

/-- After `mm_init` and two `malloc(1)`: freeing both. -/
theorem free_all_twoSys : Reach InitOnce twoSys ∧ twoSys.st.heapStart ≠ 0 ∧
    [16, 32].Perm twoSys.live ∧
    ∃ σ', twoSys.run (fun _ => true) ([16, 32].map .free) = some σ' ∧ σ'.live = [] ∧
      σ'.st.brk = twoSys.st.brk ∧ ∃ h', HeapInv σ'.st h' ∧
        h'.blocks = if twoSys.st.heapStart + 8 < twoSys.st.brk then
          [⟨twoSys.st.brk - 8 - twoSys.st.heapStart, false⟩] else [] :=
  have hR : Reach InitOnce twoSys := .step _ (.malloc 1) reach_mallocSys
    ⟨show 1 ≤ 2 ^ 64 - 24 by decide, Call.noConfusion⟩ twoSys_call
  have hst : twoSys.st.heapStart ≠ 0 := by
    rw [(grows_call Call.noConfusion twoSys_call).2.2 (by decide)]; decide
  have hps : [16, 32].Perm twoSys.live := List.Perm.swap _ _ _
  ⟨hR, hst, hps, free_all_reach _ hR hst hps⟩

end SegMalloc.Canonical
