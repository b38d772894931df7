import SegMalloc.Invariant
import SegMalloc.FindFit

/-! `find_fit` on the abstract heap. The scan follows each list through its `free.next`
links, so a block it returns is a listed free block large enough for the request; and
since the head of every list it enters is examined before the search limit can end the
list, a list whose head fits is never passed over. -/
namespace SegMalloc.FitSpec
open Header Block FindFit Layout Links Invariant

/-- `z` is a listed free block of at least `asize` bytes. -/
def Fits (s : State) (h : Heap) (asize z : Nat) : Prop :=
  ∃ i c, z ∈ h.bins i ∧ BlockAt s.heapStart h.blocks z c ∧ asize ≤ c.size

/-- The scan's state between blocks: nothing chosen yet with the initial least surplus,
or a fit chosen. -/
def ScanInv (s : State) (h : Heap) (asize best minDiff : Nat) : Prop :=
  (best = 0 ∧ minDiff = 2 ^ 64 - 1) ∨ Fits s h asize best

/-- A scan of one list ends with a fit, or in a state the next list's scan starts from. -/
def ScanOk (s : State) (h : Heap) (asize : Nat) : Scan → Prop
  | .found b => Fits s h asize b
  | .next b minDiff _ => ScanInv s h asize b minDiff

/-- The lists the scan of `find_fit` enters when it does not return the mini list's head:
list 0 only when it is empty. -/
theorem findFit_range {s : State} {h : Heap} {asize : Nat} (hinv : HeapInv s h)
    (hc : ¬ (getListIndex asize = 0 ∧ s.segList 0 ≠ 0)) :
    ∀ i ∈ List.range' (getListIndex asize) (segListNum - getListIndex asize),
      i < segListNum ∧ (i = 0 → h.bins 0 = []) := by
  intro i hi
  rw [List.mem_range'_1] at hi
  refine ⟨by omega, fun hi0 => ?_⟩
  subst hi0
  have hhead0 := hinv.lists.heads 0 (by decide)
  rw [show s.segList 0 = 0 by by_contra hne; exact hc ⟨by omega, hne⟩] at hhead0
  cases hb : h.bins 0 with
  | nil => rfl
  | cons z l =>
    rw [hb, List.headD_cons] at hhead0
    have hz : z ∈ h.bins 0 := by rw [hb]; exact List.mem_cons_self z l
    exact absurd hhead0.symm (hinv.lists.pos hinv.arena hz).ne'

section Scan

variable {s : State} {h : Heap} {asize : Nat} (hinv : HeapInv s h) (hmin : 16 ≤ asize)
include hinv hmin

/-- One block examined: the chosen block stays a fit, and a fitting block leaves a fit
chosen. -/
theorem scan_step {i z best minDiff : Nat} (hz : z ∈ h.bins i)
    (hb : ScanInv s h asize best minDiff) :
    ScanInv s h asize
        (if (decide (getSize s z ≥ asize) && decide (getSize s z - asize < minDiff)) = true
          then z else best)
        (if (decide (getSize s z ≥ asize) && decide (getSize s z - asize < minDiff)) = true
          then getSize s z - asize else minDiff) ∧
      (asize ≤ getSize s z ∨ Fits s h asize best →
        Fits s h asize
          (if (decide (getSize s z ≥ asize) && decide (getSize s z - asize < minDiff)) = true
            then z else best)) := by
  obtain ⟨c, hc, -, -⟩ := hinv.lists.members i z hz
  have hsz := (hinv.read hc).1
  have hlt := (hinv.arena.blk hc).2.2.2
  have hbrk := hinv.arena.brk_le
  rw [hsz]
  by_cases hf : asize ≤ c.size
  · by_cases hd : c.size - asize < minDiff
    · simp only [ge_iff_le, hf, hd, decide_True, Bool.and_self, if_true]
      exact ⟨.inr ⟨i, c, hz, hc, hf⟩, fun _ => ⟨i, c, hz, hc, hf⟩⟩
    · simp only [ge_iff_le, hf, hd, decide_True, decide_False, Bool.and_false,
        Bool.false_eq_true, if_false]
      refine ⟨hb, fun _ => hb.resolve_left fun ⟨_, hm⟩ => hd ?_⟩
      omega
  · simp only [ge_iff_le, hf, decide_False, Bool.false_and, Bool.false_eq_true, if_false,
      false_or]
    exact ⟨hb, id⟩

/-- The scan of one list, from the node `l.headD 0` with the list's rest `l` linked in
memory. -/
theorem scanBucket_ok {i : Nat} :
    ∀ (l : List Nat) (p rem best minDiff : Nat), (∀ z ∈ l, z ∈ h.bins i) →
      FreeChain s.mem p l 0 → ScanInv s h asize best minDiff →
      ScanOk s h asize (scanBucket s asize rem (l.headD 0) best minDiff) ∧
        (Fits s h asize best ∨ (∃ z ∈ l.head?, asize ≤ getSize s z) →
          Fits s h asize (scanBucket s asize rem (l.headD 0) best minDiff).best)
  | [], _, rem, best, minDiff, _, _, hb => by
    rw [List.headD_nil, scanBucket, if_pos rfl]
    exact ⟨hb, fun h => h.resolve_right (by simp)⟩
  | z :: l, p, rem, best, minDiff, hl, hch, hb => by
    have hz := hl z (List.mem_cons_self z l)
    have hz0 : z ≠ 0 := (hinv.lists.pos hinv.arena hz).ne'
    obtain ⟨hb', hfit⟩ := scan_step hinv hmin hz hb
    rw [List.headD_cons, scanBucket, if_neg hz0]
    dsimp only
    generalize (if (decide (getSize s z ≥ asize) && decide (getSize s z - asize < minDiff)) = true
      then z else best) = best' at hb' hfit ⊢
    generalize (if (decide (getSize s z ≥ asize) && decide (getSize s z - asize < minDiff)) = true
      then getSize s z - asize else minDiff) = minDiff' at hb' ⊢
    split
    · rename_i hfound
      have : asize ≤ getSize s z := by simp at hfound; omega
      exact ⟨hfit (.inl this), fun _ => hfit (.inl this)⟩
    · have hhead : Fits s h asize best ∨ (∃ y ∈ (z :: l).head?, asize ≤ getSize s y) →
          Fits s h asize best' := by
        rintro (hf | ⟨y, hy, hle⟩)
        · exact hfit (.inr hf)
        · obtain rfl : y = z := by simpa using hy.symm
          exact hfit (.inl hle)
      cases rem with
      | zero => exact ⟨hb', hhead⟩
      | succ rem =>
        have hnext : freeNext s z = l.headD 0 := hch.2.1
        rw [hnext]
        obtain ⟨ih₁, ih₂⟩ := scanBucket_ok l z rem best' minDiff'
          (fun y hy => hl y (List.mem_cons_of_mem z hy)) hch.2.2 hb'
        exact ⟨ih₁, fun h => ih₂ (.inl (hhead h))⟩

/-- The scan over the lists `is`, the counter carried from list to list. -/
theorem scanBuckets_ok : ∀ (is : List Nat) (best minDiff rem : Nat),
    (∀ i ∈ is, i < segListNum ∧ (i = 0 → h.bins 0 = [])) → ScanInv s h asize best minDiff →
    (scanBuckets s asize is best minDiff rem = 0 ∨
        Fits s h asize (scanBuckets s asize is best minDiff rem)) ∧
      (Fits s h asize best ∨ (∃ i ∈ is, ∃ z ∈ (h.bins i).head?, asize ≤ getSize s z) →
        Fits s h asize (scanBuckets s asize is best minDiff rem))
  | [], best, minDiff, rem, _, hb => by
    rw [scanBuckets]
    exact ⟨hb.imp And.left id, fun h => h.resolve_right (by simp)⟩
  | i :: is, best, minDiff, rem, his, hb => by
    obtain ⟨hi15, hi0⟩ := his i (List.mem_cons_self i is)
    have hch : FreeChain s.mem 0 (h.bins i) 0 := by
      rcases Nat.eq_zero_or_pos i with rfl | hpos
      · rw [hi0 rfl]; trivial
      · exact hinv.lists.links i hpos
    obtain ⟨hok, hfit⟩ := scanBucket_ok hinv hmin (h.bins i) 0 rem best minDiff (fun _ h => h) hch hb
    rw [← hinv.lists.heads i hi15] at hok hfit
    rw [scanBuckets]
    split
    · rename_i b heq
      rw [heq] at hok
      exact ⟨.inr hok, fun _ => hok⟩
    · rename_i b m r heq
      rw [heq] at hok hfit
      obtain ⟨ih₁, ih₂⟩ := scanBuckets_ok is b m r (fun j hj => his j (List.mem_cons_of_mem i hj)) hok
      refine ⟨ih₁, fun hf => ih₂ ?_⟩
      rcases hf with hf | ⟨j, hj, hz⟩
      · exact .inl (hfit (.inl hf))
      · rcases List.mem_cons.1 hj with rfl | hj
        · exact .inl (hfit (.inr hz))
        · exact .inr ⟨j, hj, hz⟩

/-- `find_fit` returns `NULL` or a listed free block of at least `asize` bytes, and a block
whenever the head of some list is large enough. -/
theorem findFit_spec (h16 : asize % 16 = 0) :
    (findFit s asize = 0 ∨ Fits s h asize (findFit s asize)) ∧
      ((∃ i < segListNum, ∃ z ∈ (h.bins i).head?, asize ≤ getSize s z) →
        Fits s h asize (findFit s asize)) := by
  have hhead0 := hinv.lists.heads 0 (by decide)
  unfold findFit
  dsimp only
  split
  · -- size class 0 with a mini block listed: its head is returned at once
    rename_i hc
    obtain ⟨hseg0, hne⟩ := hc
    have hasize : asize = 16 := by have := (getListIndex_eq_zero_iff asize).1 hseg0; omega
    cases hb : h.bins 0 with
    | nil => rw [hb] at hhead0; exact absurd hhead0 hne
    | cons z l =>
      rw [hb, List.headD_cons] at hhead0
      obtain ⟨c, hc, -⟩ := hinv.lists.members 0 z (by rw [hb]; exact List.mem_cons_self z l)
      have := (hinv.arena.blk hc).2.1
      have hfz : Fits s h asize (s.segList 0) :=
        ⟨0, c, by rw [hhead0, hb]; exact List.mem_cons_self z l, by rw [hhead0]; exact hc,
          by omega⟩
      exact ⟨.inr hfz, fun _ => hfz⟩
  · rename_i hc
    obtain ⟨h₁, h₂⟩ := scanBuckets_ok hinv hmin _ 0 (2 ^ 64 - 1) (searchLimit + 1)
      (findFit_range hinv hc) (.inl ⟨rfl, rfl⟩)
    refine ⟨h₁, fun ⟨i, hi, z, hz, hle⟩ => h₂ (.inr ⟨i, ?_, z, hz, hle⟩)⟩
    -- the list of a fitting block comes no earlier than the request's own list
    rw [List.mem_range'_1]
    obtain ⟨c, hc, -, hci⟩ := hinv.lists.members i z (List.mem_of_mem_head? hz)
    have := getListIndex_mono (hle.trans (hinv.read hc).1.le)
    omega

end Scan

/-! ## What the scan reads -/

/-- The loop over one list reads `free.next` of that list's nodes only. -/
theorem scanBucketReads_sub {s : State} {asize : Nat} :
    ∀ (l : List Nat) (p rem best minDiff : Nat), FreeChain s.mem p l 0 →
      scanBucketReads s asize rem (l.headD 0) best minDiff ⊆ l
  | [], _, rem, best, minDiff, _ => by
    rw [List.headD_nil, scanBucketReads, if_pos rfl]; exact List.nil_subset _
  | z :: l, p, rem, best, minDiff, hch => by
    rw [List.headD_cons, scanBucketReads]
    by_cases hz0 : z = 0
    · rw [if_pos hz0]; exact List.nil_subset _
    rw [if_neg hz0]
    dsimp only
    generalize (if (decide (getSize s z ≥ asize) && decide (getSize s z - asize < minDiff)) = true
      then z else best) = best'
    generalize (if (decide (getSize s z ≥ asize) && decide (getSize s z - asize < minDiff)) = true
      then getSize s z - asize else minDiff) = minDiff'
    split
    · exact List.nil_subset _
    · cases rem with
      | zero => exact List.nil_subset _
      | succ rem =>
        rw [show freeNext s z = l.headD 0 from hch.2.1]
        exact List.cons_subset_cons z (scanBucketReads_sub l z rem _ _ hch.2.2)

theorem scanBucketsReads_sub {s : State} {h : Heap} {asize : Nat} (hinv : HeapInv s h) :
    ∀ (is : List Nat) (best minDiff rem : Nat),
      (∀ i ∈ is, i < segListNum ∧ (i = 0 → h.bins 0 = [])) →
      ∀ z ∈ scanBucketsReads s asize is best minDiff rem, ∃ i, 0 < i ∧ z ∈ h.bins i
  | [], _, _, _, _ => by simp [scanBucketsReads]
  | i :: is, best, minDiff, rem, his => by
    obtain ⟨hi15, hi0⟩ := his i (List.mem_cons_self i is)
    intro z hz
    rw [scanBucketsReads, List.mem_append] at hz
    rcases hz with hz | hz
    · rw [hinv.lists.heads i hi15] at hz
      rcases Nat.eq_zero_or_pos i with rfl | hpos
      · rw [hi0 rfl] at hz; simp [scanBucketReads] at hz
      · exact ⟨i, hpos, scanBucketReads_sub _ 0 _ _ _ (hinv.lists.links i hpos) hz⟩
    · split at hz
      · simp at hz
      · exact scanBucketsReads_sub hinv is _ _ _ (fun j hj => his j (List.mem_cons_of_mem i hj)) z hz

/-- `find_fit` reads `free.next` of nodes of lists `1..14` only, never of a block of the mini
list, where that word is the next block's header. -/
theorem findFitReads_spec {s : State} {h : Heap} {asize : Nat} (hinv : HeapInv s h) :
    ∀ z ∈ findFitReads s asize, ∃ i, 0 < i ∧ z ∈ h.bins i := by
  unfold findFitReads
  dsimp only
  split
  · simp
  · rename_i hc
    exact scanBucketsReads_sub hinv _ _ _ _ (findFit_range hinv hc)

/-- With every list head `NULL`, `find_fit` reads nothing and returns `NULL`. -/
theorem findFit_of_empty {s : State} {asize : Nat} (h0 : ∀ i < segListNum, s.segList i = 0) :
    findFit s asize = 0 ∧ findFitReads s asize = [] := by
  have hscan : ∀ (is : List Nat) (best minDiff rem : Nat), (∀ i ∈ is, s.segList i = 0) →
      scanBuckets s asize is best minDiff rem = best ∧
        scanBucketsReads s asize is best minDiff rem = [] := by
    intro is
    induction is with
    | nil => exact fun _ _ _ _ => ⟨rfl, rfl⟩
    | cons i is ih =>
      intro best minDiff rem his
      have hi := his i (List.mem_cons_self i is)
      have h₁ : scanBucket s asize rem 0 best minDiff = .next best minDiff rem := by
        rw [scanBucket, if_pos rfl]
      have h₂ : scanBucketReads s asize rem 0 best minDiff = [] := by
        rw [scanBucketReads, if_pos rfl]
      rw [scanBuckets, scanBucketsReads, hi, h₁, h₂, List.nil_append]
      exact ih best minDiff rem fun j hj => his j (List.mem_cons_of_mem i hj)
  have hc : ¬ (getListIndex asize = 0 ∧ s.segList 0 ≠ 0) := fun h => h.2 (h0 0 (by decide))
  unfold findFit findFitReads
  dsimp only
  rw [if_neg hc, if_neg hc]
  exact hscan _ _ _ _ fun i hi => h0 i (by rw [List.mem_range'_1] at hi; omega)

end SegMalloc.FitSpec
