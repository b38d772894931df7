import SegMalloc.Growth

/-! `find_fit` is a best fit up to `CLOSE_ENOUGH` over the blocks it examines. The scan keeps the
block of least surplus so far and returns early only with a surplus of at most `CLOSE_ENOUGH`,
so what it returns fits no worse than any fitting block it looked at, unless it is within
`CLOSE_ENOUGH` bytes of the request. It always looks at the head of each list from the
request's class up; and when those lists hold at most `SEARCH_LIMIT + 1` blocks in all the
counter never ends a list early, so it looks at every block on them. -/
namespace SegMalloc.BestFit
open Memory Header Block FindFit Links Invariant FitSpec Run Growth

section Scan

variable {s : State} {asize : Nat}

/-- The scan's choice so far: nothing yet, with the initial least surplus, or a fitting block
whose surplus is the least surplus. -/
def Chosen (s : State) (asize best minDiff : Nat) : Prop :=
  (best = 0 ∧ minDiff = 2 ^ 64 - 1) ∨
    (best ≠ 0 ∧ asize ≤ getSize s best ∧ minDiff = getSize s best - asize)

/-- What the scan of the list `l` leaves, from the counter `rem` and the least surplus
`minDiff`: a block within `CLOSE_ENOUGH` bytes, or a choice no worse than before and than the
list's head, and than every block of the list when the counter lasts the whole list. -/
def ScanBest (s : State) (asize : Nat) (l : List Nat) (rem minDiff : Nat) : Scan → Prop
  | .found b => b ≠ 0 ∧ asize ≤ getSize s b ∧ getSize s b - asize ≤ closeEnough
  | .next best' minDiff' rem' => Chosen s asize best' minDiff' ∧ minDiff' ≤ minDiff ∧
      (∀ y ∈ l.head?, asize ≤ getSize s y → minDiff' ≤ getSize s y - asize) ∧
      (l.length ≤ rem → rem' = rem - l.length ∧
        ∀ y ∈ l, asize ≤ getSize s y → minDiff' ≤ getSize s y - asize)

/-- `z` fits no worse than `y`: if `y` fits, `z` is a fitting block with no more surplus, or
within `CLOSE_ENOUGH` bytes of the request. -/
def NoWorse (s : State) (asize z y : Nat) : Prop :=
  asize ≤ getSize s y → z ≠ 0 ∧ asize ≤ getSize s z ∧
    (getSize s z - asize ≤ getSize s y - asize ∨ getSize s z - asize ≤ closeEnough)

theorem Chosen.of_le {best minDiff : Nat} (hb : Chosen s asize best minDiff)
    (hlt : minDiff < 2 ^ 64 - 1) :
    best ≠ 0 ∧ asize ≤ getSize s best ∧ minDiff = getSize s best - asize :=
  hb.resolve_left fun h => by omega

/-- One block examined: the choice stays a choice, the least surplus does not grow, and it is
at most the block's surplus when the block fits. -/
theorem chosen_step {z best minDiff : Nat} (hz : z ≠ 0) (hb : Chosen s asize best minDiff) :
    Chosen s asize
        (if (decide (getSize s z ≥ asize) && decide (getSize s z - asize < minDiff)) = true
          then z else best)
        (if (decide (getSize s z ≥ asize) && decide (getSize s z - asize < minDiff)) = true
          then getSize s z - asize else minDiff) ∧
      (if (decide (getSize s z ≥ asize) && decide (getSize s z - asize < minDiff)) = true
          then getSize s z - asize else minDiff) ≤ minDiff ∧
      (asize ≤ getSize s z →
        (if (decide (getSize s z ≥ asize) && decide (getSize s z - asize < minDiff)) = true
          then getSize s z - asize else minDiff) ≤ getSize s z - asize) := by
  by_cases hf : asize ≤ getSize s z
  · by_cases hd : getSize s z - asize < minDiff
    · simp only [ge_iff_le, hf, hd, decide_True, Bool.and_self, if_true]
      exact ⟨.inr ⟨hz, hf, rfl⟩, hd.le, fun _ => le_rfl⟩
    · simp only [ge_iff_le, hf, hd, decide_True, decide_False, Bool.and_false,
        Bool.false_eq_true, if_false]
      exact ⟨hb, le_rfl, fun _ => by omega⟩
  · simp only [ge_iff_le, hf, decide_False, Bool.false_and, Bool.false_eq_true, if_false]
    exact ⟨hb, le_rfl, fun h => h.elim⟩

/-- The scan of one list `l`, linked in memory by `free.next` up to `NULL`. -/
theorem scanBucket_best : ∀ (l : List Nat) (p rem best minDiff : Nat), FreeChain s.mem p l 0 →
    (∀ z ∈ l, z ≠ 0) → Chosen s asize best minDiff →
    ScanBest s asize l rem minDiff (scanBucket s asize rem (l.headD 0) best minDiff)
  | [], _, rem, best, minDiff, _, _, hb => by
    rw [List.headD_nil, scanBucket, if_pos rfl]
    exact ⟨hb, le_rfl, by simp, fun _ => ⟨rfl, by simp⟩⟩
  | z :: l, _, rem, best, minDiff, ⟨_, hn, hch⟩, h0, hb => by
    have hz0 := h0 z (List.mem_cons_self z l)
    obtain ⟨hb', hle', hz'⟩ := chosen_step hz0 hb
    rw [List.headD_cons, scanBucket, if_neg hz0]
    dsimp only
    generalize (if (decide (getSize s z ≥ asize) && decide (getSize s z - asize < minDiff)) = true
      then z else best) = best' at hb' ⊢
    generalize (if (decide (getSize s z ≥ asize) && decide (getSize s z - asize < minDiff)) = true
      then getSize s z - asize else minDiff) = minDiff' at hb' hle' hz' ⊢
    split
    · -- a fit within `CLOSE_ENOUGH` bytes ends the search
      rename_i hfound
      simp only [Bool.and_eq_true, decide_eq_true_eq] at hfound
      obtain ⟨hne, hfit, rfl⟩ := hb'.of_le (by unfold closeEnough at hfound; omega)
      exact ⟨hne, hfit, hfound.2⟩
    · have hhead : ∀ y ∈ (z :: l).head?, asize ≤ getSize s y →
          minDiff' ≤ getSize s y - asize := by
        intro y hy
        obtain rfl : y = z := by simpa using hy.symm
        exact hz'
      cases rem with
      | zero =>
        -- the counter ends the list after its head
        exact ⟨hb', hle', hhead, fun h => absurd h (by simp)⟩
      | succ rem =>
        have hnext : freeNext s z = l.headD 0 := hn
        rw [hnext]
        show ScanBest s asize (z :: l) (rem + 1) minDiff
          (scanBucket s asize rem (l.headD 0) best' minDiff')
        have ih := scanBucket_best l z rem best' minDiff' hch
          (fun y hy => h0 y (List.mem_cons_of_mem z hy)) hb'
        generalize scanBucket s asize rem (l.headD 0) best' minDiff' = r at ih ⊢
        cases r with
        | found b => exact ih
        | next b m r' =>
          obtain ⟨hc, hm, -, hall⟩ := ih
          refine ⟨hc, hm.trans hle', fun y hy hy' => hm.trans (hhead y hy hy'), fun hlen => ?_⟩
          obtain ⟨hr', hl⟩ := hall (by simp only [List.length_cons] at hlen; omega)
          refine ⟨by simp only [List.length_cons]; omega, fun y hy hy' => ?_⟩
          rcases List.mem_cons.1 hy with rfl | hy
          · exact hm.trans (hz' hy')
          · exact hl y hy hy'

end Scan

section Lists

variable {s : State} {h : Heap} {asize : Nat} (hinv : HeapInv s h) (hpos : 0 < asize)
include hinv hpos

/-- The scan over the lists `is`, the counter carried from list to list: the result is no worse
than the choice it starts from, than every list's head, and, when the lists hold no more blocks
than the counter allows, than every block on them. -/
theorem scanBuckets_best : ∀ (is : List Nat) (best minDiff rem : Nat),
    (∀ i ∈ is, i < segListNum ∧ (i = 0 → h.bins 0 = [])) → Chosen s asize best minDiff →
    (∀ m, minDiff ≤ m → m < 2 ^ 64 - 1 →
      scanBuckets s asize is best minDiff rem ≠ 0 ∧
        asize ≤ getSize s (scanBuckets s asize is best minDiff rem) ∧
        (getSize s (scanBuckets s asize is best minDiff rem) - asize ≤ m ∨
          getSize s (scanBuckets s asize is best minDiff rem) - asize ≤ closeEnough)) ∧
      (∀ i ∈ is, ∀ y ∈ (h.bins i).head?,
        NoWorse s asize (scanBuckets s asize is best minDiff rem) y) ∧
      ((is.map fun i => (h.bins i).length).sum ≤ rem →
        ∀ i ∈ is, ∀ y ∈ h.bins i, NoWorse s asize (scanBuckets s asize is best minDiff rem) y)
  | [], best, minDiff, rem, _, hb => by
    refine ⟨fun m hm hlt => ?_, by simp, by simp⟩
    obtain ⟨hne, hfit, rfl⟩ := hb.of_le (by omega)
    exact ⟨hne, hfit, .inl hm⟩
  | i :: is, best, minDiff, rem, his, hb => by
    obtain ⟨hi15, hi0⟩ := his i (List.mem_cons_self i is)
    have hch : FreeChain s.mem 0 (h.bins i) 0 := by
      rcases Nat.eq_zero_or_pos i with rfl | hi
      · rw [hi0 rfl]; trivial
      · exact hinv.lists.links i hi
    have h0 : ∀ z ∈ h.bins i, z ≠ 0 := fun z hz => (hinv.lists.pos hinv.arena hz).ne'
    -- a fitting block's surplus is below the initial least surplus
    have hsur : ∀ y, getSize s y - asize ≤ 2 ^ 64 - 1 - 1 := fun y => by
      have := extractSize_lt (loadWord s.mem y); unfold getSize; omega
    have hone := scanBucket_best (h.bins i) 0 rem best minDiff hch h0 hb
    rw [← hinv.lists.heads i hi15] at hone
    rw [scanBuckets]
    split
    · -- a fit within `CLOSE_ENOUGH` bytes: no worse than anything
      rename_i b heq
      rw [heq] at hone
      obtain ⟨hne, hfit, hclose⟩ := hone
      exact ⟨fun _ _ _ => ⟨hne, hfit, .inr hclose⟩, fun _ _ _ _ _ => ⟨hne, hfit, .inr hclose⟩,
        fun _ _ _ _ _ _ => ⟨hne, hfit, .inr hclose⟩⟩
    · rename_i b m r heq
      rw [heq] at hone
      obtain ⟨hc, hm, hhead, hall⟩ := hone
      obtain ⟨ih₁, ih₂, ih₃⟩ := scanBuckets_best is b m r
        (fun j hj => his j (List.mem_cons_of_mem i hj)) hc
      have hy : ∀ y, asize ≤ getSize s y → m ≤ getSize s y - asize →
          NoWorse s asize (scanBuckets s asize is b m r) y :=
        fun y _ hle hfit => ih₁ _ hle (by have := hsur y; omega)
      refine ⟨fun m' hm' hlt => ih₁ m' (hm.trans hm') hlt, fun j hj y hy' => ?_,
        fun hsum j hj => ?_⟩
      · rcases List.mem_cons.1 hj with rfl | hj
        · exact fun hfit => hy y hfit (hhead y hy' hfit) hfit
        · exact ih₂ j hj y hy'
      · simp only [List.map_cons, List.sum_cons] at hsum
        obtain ⟨hr, hl⟩ := hall (by omega)
        rcases List.mem_cons.1 hj with rfl | hj
        · exact fun y hy' hfit => hy y hfit (hl y hy' hfit) hfit
        · exact ih₃ (by omega) j hj

/-- `find_fit` on the heap invariant: what it returns fits no worse than the head of every list
from the request's class up, and, when those lists hold at most `SEARCH_LIMIT + 1` blocks in
all, no worse than any block on them, unless it is within `CLOSE_ENOUGH` bytes. -/
theorem findFit_best (h16 : asize % 16 = 0) :
    (∀ i, getListIndex asize ≤ i → i < segListNum → ∀ y ∈ (h.bins i).head?,
      NoWorse s asize (findFit s asize) y) ∧
    (((List.range' (getListIndex asize) (segListNum - getListIndex asize)).map
        fun i => (h.bins i).length).sum ≤ searchLimit + 1 →
      ∀ i, getListIndex asize ≤ i → i < segListNum → ∀ y ∈ h.bins i,
        NoWorse s asize (findFit s asize) y) := by
  have hr : ∀ i, getListIndex asize ≤ i → i < segListNum →
      i ∈ List.range' (getListIndex asize) (segListNum - getListIndex asize) := fun i h₁ h₂ =>
    List.mem_range'_1.2 ⟨h₁, by omega⟩
  unfold findFit
  dsimp only
  split
  · -- the mini list's head, a block of 16 bytes for a request of 16
    rename_i hc
    obtain ⟨hseg0, hne⟩ := hc
    have hasize : asize = 16 := by have := (getListIndex_eq_zero_iff asize).1 hseg0; omega
    have hhead0 := hinv.lists.heads 0 (by decide)
    obtain ⟨z, l, hb⟩ : ∃ z l, h.bins 0 = z :: l := by
      cases hb : h.bins 0 with
      | nil => rw [hb] at hhead0; exact absurd hhead0 hne
      | cons z l => exact ⟨z, l, rfl⟩
    rw [hb, List.headD_cons] at hhead0
    obtain ⟨c, hc, -, hci, -, -, -⟩ :=
      hinv.lists.member hinv.arena (by rw [hb]; exact List.mem_cons_self z l)
    have hsz : getSize s (s.segList 0) = 16 := by
      rw [hhead0, (hinv.read hc).1]
      have := (getListIndex_eq_zero_iff c.size).1 hci
      have := hinv.arena.blk hc
      omega
    have hbest : ∀ y, NoWorse s asize (s.segList 0) y := fun y _ =>
      ⟨hne, by omega, .inl (by omega)⟩
    exact ⟨fun _ _ _ y _ => hbest y, fun _ _ _ _ y _ => hbest y⟩
  · rename_i hc
    obtain ⟨-, h₂, h₃⟩ := scanBuckets_best hinv hpos _ 0 (2 ^ 64 - 1) (searchLimit + 1)
      (findFit_range hinv hc) (.inl ⟨rfl, rfl⟩)
    exact ⟨fun i h₁ h₂' => h₂ i (hr i h₁ h₂'), fun hsum i h₁ h₂' => h₃ hsum i (hr i h₁ h₂')⟩

end Lists

/-- In every reachable system with the heap initialized, for every request size the allocator
asks for, `find_fit` returns a block that fits no worse than the head of every list from the
request's class up, and, when those lists hold at most `SEARCH_LIMIT + 1` blocks in all, no worse
than any block on them, unless it is within `CLOSE_ENOUGH` bytes of the request. -/
theorem findFit_best_reach {σ : Sys} (hR : Reach InitOnce σ) (hst : σ.st.heapStart ≠ 0)
    {asize : Nat} (hmin : 16 ≤ asize) (h16 : asize % 16 = 0) :
    (∀ i, getListIndex asize ≤ i → i < segListNum → σ.st.segList i ≠ 0 →
      NoWorse σ.st asize (findFit σ.st asize) (σ.st.segList i)) ∧
    ∀ h, HeapInv σ.st h →
      ((List.range' (getListIndex asize) (segListNum - getListIndex asize)).map
        fun i => (h.bins i).length).sum ≤ searchLimit + 1 →
      ∀ i, getListIndex asize ≤ i → i < segListNum → ∀ y ∈ h.bins i,
        NoWorse σ.st asize (findFit σ.st asize) y := by
  rcases hR.sysInv with ⟨hU, -⟩ | ⟨-, h, hinv, -⟩
  · exact absurd hU.1 hst
  refine ⟨fun i h₁ h₂ h0 => (findFit_best hinv (by omega) h16).1 i h₁ h₂ _ ?_,
    fun h' hinv' => (findFit_best hinv' (by omega) h16).2⟩
  -- a non-`NULL` head is the first block of its list
  have hhead := hinv.lists.heads i h₂
  cases hb : h.bins i with
  | nil => rw [hb] at hhead; exact absurd hhead h0
  | cons z l => rw [hb] at hhead; simp [hhead]

/-- A request of 96 bytes, of the class of list 2, on `fragSys`: the answer is compared with the
heads of lists 2 and 6. -/
theorem findFit_best_fragSys : Reach InitOnce fragSys ∧ fragSys.st.heapStart ≠ 0 ∧
    16 ≤ 96 ∧ 96 % 16 = 0 ∧
    (∀ i, getListIndex 96 ≤ i → i < segListNum → fragSys.st.segList i ≠ 0 →
      NoWorse fragSys.st 96 (findFit fragSys.st 96) (fragSys.st.segList i)) ∧
    ∀ h, HeapInv fragSys.st h →
      ((List.range' (getListIndex 96) (segListNum - getListIndex 96)).map
        fun i => (h.bins i).length).sum ≤ searchLimit + 1 →
      ∀ i, getListIndex 96 ≤ i → i < segListNum → ∀ y ∈ h.bins i,
        NoWorse fragSys.st 96 (findFit fragSys.st 96) y :=
  ⟨reach_fragSys, fragSys_heapStart, by decide, rfl,
    findFit_best_reach reach_fragSys fragSys_heapStart (by decide) rfl⟩

end SegMalloc.BestFit
