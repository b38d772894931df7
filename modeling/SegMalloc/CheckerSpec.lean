import SegMalloc.Checker

/-! The list walks of the heap checker. `chain s x k` is the `k`-th node after `x` along
`free.next`. Floyd's test `check_cycle` ends on every finite set of nodes and reports a
cycle exactly when the chain revisits a node. The other list walks follow `free.next`
until `NULL`, so a chain that cycles inside the arena keeps `mm_checkheap` from returning,
whatever `check_cycle` reported. -/
namespace SegMalloc.CheckerSpec
open Memory Header Block Checker

/-- The `k`-th node after `x` along `free.next`. -/
def chain (s : State) (x k : Nat) : Nat := (freeNext s)^[k] x

@[simp] theorem chain_zero (s : State) (x : Nat) : chain s x 0 = x := rfl

theorem chain_succ (s : State) (x k : Nat) : chain s x (k + 1) = freeNext s (chain s x k) :=
  Function.iterate_succ_apply' _ _ _

theorem chain_succ_left (s : State) (x k : Nat) :
    chain s x (k + 1) = chain s (freeNext s x) k :=
  Function.iterate_succ_apply _ _ _

theorem chain_add (s : State) (x a b : Nat) : chain s x (a + b) = chain s (chain s x a) b := by
  unfold chain; rw [Nat.add_comm, Function.iterate_add_apply]

/-- The chain from `x` revisits a node before it reaches `NULL`. -/
def Revisits (s : State) (x : Nat) : Prop :=
  ∃ i j, i < j ∧ (∀ k ≤ j, chain s x k ≠ 0) ∧ chain s x i = chain s x j

/-- A chain that meets itself repeats with the period of the meeting. -/
theorem chain_periodic {s : State} {x i j : Nat} (hij : chain s x i = chain s x j) (hlt : i < j) :
    ∀ c m, i ≤ m → chain s x (m + c * (j - i)) = chain s x m := by
  intro c
  induction c with
  | zero => intro m _; simp
  | succ c ih =>
    intro m hm
    calc chain s x (m + (c + 1) * (j - i))
        = chain s (chain s x j) (m - i + c * (j - i)) := by
          rw [← chain_add]; congr 1; rw [Nat.succ_mul]; omega
      _ = chain s x (m + c * (j - i)) := by rw [← hij, ← chain_add]; congr 1; omega
      _ = chain s x m := ih m hm

/-- A chain that revisits a node never reaches `NULL`. -/
theorem Revisits.ne_zero {s : State} {x : Nat} (h : Revisits s x) (k : Nat) : chain s x k ≠ 0 := by
  obtain ⟨i, j, hlt, hnz, heq⟩ := h
  induction k using Nat.strong_induction_on with
  | _ k ih =>
    by_cases hk : k ≤ j
    · exact hnz k hk
    · have := chain_periodic heq hlt 1 (k - (j - i)) (by omega)
      rw [show k - (j - i) + 1 * (j - i) = k by omega] at this
      rw [this]; exact ih _ (by omega)

/-! ## A cyclic list -/

/-- A heap as `mm_init` and one `free` leave it, except that the 32-byte free block at 24,
the only node of list 1, has its `free.next` pointing to itself. -/
def selfLoopHeap : State where
  mem := storeWord (storeWord (storeWord (storeWord (storeWord (fun _ => 0)
    16 (pack 0 true false false)) 24 (pack 32 false true false)) 40 24)
    48 (pack 32 false true false)) 56 (pack 0 true false false)
  lo := 16
  brk := 64
  heapStart := 24
  segList := fun i => if i = 1 then 24 else 0

theorem selfLoopHeap_freeNext : freeNext selfLoopHeap 24 = 24 := by decide

/-! ## `check_cycle` -/

section Cycle

variable {s : State} {x : Nat}

/-- The loop of `check_cycle` goes past its round `k`: the hare at node `2k` and the node
after it are not `NULL`. -/
def CycleGoes (s : State) (x k : Nat) : Prop := chain s x (2 * k) ≠ 0 ∧ chain s x (2 * k + 1) ≠ 0

/-- After round `k` the hare, two nodes on, meets the tortoise, one node on. -/
def CycleMeets (s : State) (x k : Nat) : Prop := chain s x (2 * k + 2) = chain s x (k + 1)

instance (s : State) (x k : Nat) : Decidable (CycleGoes s x k) :=
  inferInstanceAs (Decidable (_ ∧ _))

instance (s : State) (x k : Nat) : Decidable (CycleMeets s x k) :=
  inferInstanceAs (Decidable (_ = _))

/-- One round of the loop, with the hare at node `2k` and the tortoise at node `k`. -/
theorem checkCycle_round (s : State) (x k F : Nat) :
    checkCycle s (F + 1) (chain s x (2 * k)) (chain s x k) =
      if CycleGoes s x k then
        if CycleMeets s x k then some false
        else checkCycle s F (chain s x (2 * (k + 1))) (chain s x (k + 1))
      else some true := by
  rw [checkCycle, ← chain_succ, ← chain_succ, ← chain_succ,
    show 2 * (k + 1) = 2 * k + 1 + 1 by ring]
  simp only [CycleGoes, CycleMeets, Bool.and_eq_true, decide_eq_true_eq]

/-- The loop from round `k` ends at the first round `k + d` where it stops: with `false`
when the hare met the tortoise, with `true` when it reached `NULL`. -/
theorem checkCycle_run : ∀ d k F, d < F →
    (∀ m, k ≤ m → m < k + d → CycleGoes s x m ∧ ¬ CycleMeets s x m) →
    (¬ CycleGoes s x (k + d) ∨ CycleMeets s x (k + d)) →
    checkCycle s F (chain s x (2 * k)) (chain s x k) = some (decide ¬ CycleGoes s x (k + d))
  | d, k, F + 1, hF, hgo, hstop => by
    rw [checkCycle_round]
    cases d with
    | zero =>
      simp only [Nat.add_zero] at hstop ⊢
      by_cases hg : CycleGoes s x k
      · simp [hg, hstop.resolve_left (not_not.2 hg)]
      · simp [hg]
    | succ d =>
      obtain ⟨hg, hm⟩ := hgo k le_rfl (by omega)
      have e : k + 1 + d = k + (d + 1) := by omega
      rw [if_pos hg, if_neg hm, checkCycle_run d (k + 1) F (by omega)
        (fun m h₁ h₂ => hgo m (by omega) (by omega)) (e ▸ hstop), e]

/-- Over a finite set of nodes the loop stops: at `NULL`, or where the hare, which
gains one node a round, catches the tortoise inside the cycle. -/
theorem checkCycle_stops {N : Finset Nat} (hh : x = 0 ∨ x ∈ N)
    (hN : ∀ y ∈ N, freeNext s y = 0 ∨ freeNext s y ∈ N) :
    ∃ k, ¬ CycleGoes s x k ∨ CycleMeets s x k := by
  by_cases hz : ∃ L, chain s x L = 0
  · -- the chain ends, at node `2k` or `2k + 1`
    obtain ⟨L, hL⟩ := hz
    refine ⟨L / 2, .inl fun ⟨h₁, h₂⟩ => ?_⟩
    rcases show L = 2 * (L / 2) ∨ L = 2 * (L / 2) + 1 by omega with h | h
    · exact h₁ (h ▸ hL)
    · exact h₂ (h ▸ hL)
  · -- the chain stays in `N`, so it repeats a node
    push_neg at hz
    have hin : ∀ k, chain s x k ∈ N := by
      intro k
      induction k with
      | zero => exact hh.resolve_left (hz 0)
      | succ k ih =>
        rw [chain_succ]
        exact (hN _ ih).resolve_left (by rw [← chain_succ]; exact hz _)
    obtain ⟨a, ha, b, hb, hab, heq⟩ := Finset.exists_ne_map_eq_of_card_lt_of_maps_to
      (s := Finset.range (N.card + 1)) (by simp) fun k _ => hin k
    obtain ⟨i, j, hlt, hij⟩ : ∃ i j, i < j ∧ chain s x i = chain s x j := by
      rcases Nat.lt_or_gt_of_ne hab with h | h
      · exact ⟨a, b, h, heq⟩
      · exact ⟨b, a, h, heq.symm⟩
    -- a round count that is a multiple of the period and past the tail
    refine ⟨(j - i) * (i + 1) - 1, .inr ?_⟩
    have hK : 0 < (j - i) * (i + 1) := Nat.mul_pos (by omega) (by omega)
    have hper := chain_periodic hij hlt (i + 1) ((j - i) * (i + 1))
      (Nat.le_mul_of_pos_left _ (by omega) |>.trans' (by omega))
    unfold CycleMeets
    rw [show 2 * ((j - i) * (i + 1) - 1) + 2 = (j - i) * (i + 1) + (i + 1) * (j - i) by
      rw [Nat.mul_comm (i + 1)]; omega, hper, Nat.sub_add_cancel hK]

/-- `check_cycle` ends on every finite set of nodes closed under `free.next`, and reports a
cycle (returns `false`) exactly when the chain from the head revisits a node. -/
theorem checkCycle_spec {h : Nat} (N : Finset Nat) (hh : h = 0 ∨ h ∈ N)
    (hN : ∀ y ∈ N, freeNext s y = 0 ∨ freeNext s y ∈ N) :
    ∃ n, ∀ fuel, n ≤ fuel →
      ∃ b, checkCycle s fuel h h = some b ∧ (b = false ↔ Revisits s h) := by
  classical
  have hex := checkCycle_stops hh hN
  refine ⟨Nat.find hex + 1, fun fuel hfuel => ⟨_, checkCycle_run (x := h) (Nat.find hex) 0 fuel
    (by omega) (fun m _ hm => ?_) (by simpa using Nat.find_spec hex), ?_⟩⟩
  · have := Nat.find_min hex (show m < Nat.find hex by omega)
    push_neg at this
    exact this
  · -- the loop reported `false` exactly when it went on in its last round
    set K := Nat.find hex
    have hmin : ∀ m < K, CycleGoes s h m := fun m hm => by
      have := Nat.find_min hex hm; push_neg at this; exact this.1
    simp only [Nat.zero_add, decide_eq_false_iff_not, not_not]
    constructor
    · intro hg
      have hm := (Nat.find_spec hex).resolve_left (not_not.2 hg)
      -- every node up to `2K + 1` is not `NULL`
      have hnz : ∀ t ≤ 2 * K + 1, chain s h t ≠ 0 := by
        intro t ht
        rcases show t / 2 < K ∨ t / 2 = K by omega with hk | hk
        · have := hmin _ hk
          rcases show t = 2 * (t / 2) ∨ t = 2 * (t / 2) + 1 by omega with e | e
          · rw [e]; exact this.1
          · rw [e]; exact this.2
        · rcases show t = 2 * K ∨ t = 2 * K + 1 by omega with e | e
          · rw [e]; exact hg.1
          · rw [e]; exact hg.2
      refine ⟨K + 1, 2 * K + 2, by omega, fun t ht => ?_, hm.symm⟩
      rcases show t ≤ 2 * K + 1 ∨ t = 2 * K + 2 by omega with ht | rfl
      · exact hnz t ht
      · unfold CycleMeets at hm; rw [hm]; exact hnz _ (by omega)
    · intro hr
      exact ⟨hr.ne_zero _, hr.ne_zero _⟩

/-- On the self-linked block the chain revisits its head, and `check_cycle` stops. -/
theorem checkCycle_selfLoop : ((24 = 0 ∨ 24 ∈ ({24} : Finset Nat)) ∧
    ∀ y ∈ ({24} : Finset Nat), freeNext selfLoopHeap y = 0 ∨
      freeNext selfLoopHeap y ∈ ({24} : Finset Nat)) ∧
    ∃ n, ∀ fuel, n ≤ fuel → ∃ b, checkCycle selfLoopHeap fuel 24 24 = some b ∧
      (b = false ↔ Revisits selfLoopHeap 24) := by
  have hN : ∀ y ∈ ({24} : Finset Nat),
      freeNext selfLoopHeap y = 0 ∨ freeNext selfLoopHeap y ∈ ({24} : Finset Nat) := by
    simp [selfLoopHeap_freeNext]
  exact ⟨⟨by simp, hN⟩, checkCycle_spec {24} (by simp) hN⟩

end Cycle

/-! ## The other list walks -/

section Walk

variable {s : State}

/-- A list walk that meets neither `NULL` nor a node it rejects never returns. -/
theorem walkList_diverges {bad : Nat → Bool} :
    ∀ {x : Nat}, (∀ k, chain s x k ≠ 0 ∧ bad (chain s x k) = false) →
      ∀ fuel, walkList s bad fuel x = none := by
  intro x hgo fuel
  induction fuel generalizing x with
  | zero => rfl
  | succ fuel ih =>
    obtain ⟨h₀, hb⟩ := hgo 0
    rw [walkList, if_pos (show x ≠ 0 from h₀), if_neg (show ¬ bad x = true by simpa using hb)]
    exact ih fun k => by rw [← chain_succ_left]; exact hgo (k + 1)

private theorem bind_of_none {α β : Type} (x : Option α) {f : α → Option β}
    (h : ∀ a, f a = none) : x >>= f = none :=
  (funext h : f = fun _ => none) ▸ Option.bind_none x

/-- The loop over the lists does not return once `check_bounds` does not return on one of
them: the checks before it on that list, and on the lists before it, return or do not. -/
theorem checkLists_diverges {fuel i : Nat} (h : checkBounds fuel s (s.segList i) = none) :
    ∀ {is : List Nat} (c : Bool), i ∈ is → checkLists fuel s is c = none
  | j :: is, _, hi => by
    rw [checkLists]
    refine bind_of_none _ fun _ => bind_of_none _ fun _ => ?_
    rcases List.mem_cons.1 hi with rfl | hi
    · rw [h]; rfl
    · exact bind_of_none _ fun _ => bind_of_none _ fun _ => bind_of_none _ fun c =>
        checkLists_diverges h c hi

/-- A free list `1..14` whose chain never reaches `NULL` and stays inside the arena keeps
`mm_checkheap` from returning, with any fuel: `check_bounds` follows it for ever, whatever
`check_cycle` reported before. -/
theorem mmCheckheap_diverges {i : Nat} (hi₁ : 1 ≤ i) (hi : i < segListNum)
    (hcyc : ∀ k, chain s (s.segList i) k ≠ 0 ∧
      s.lo ≤ chain s (s.segList i) k ∧ chain s (s.segList i) k ≤ s.brk - 1) (fuel : Nat) :
    mmCheckheap fuel s = none := by
  have hb : checkBounds fuel s (s.segList i) = none :=
    walkList_diverges (fun k => ⟨(hcyc k).1, by simp [(hcyc k).2.1, (hcyc k).2.2]⟩) fuel
  rw [mmCheckheap]
  exact bind_of_none _ fun _ => bind_of_none _ fun _ => bind_of_none _ fun _ =>
    bind_of_none _ fun _ => bind_of_none _ fun _ => bind_of_none _ fun c =>
      checkLists_diverges hb c (List.mem_range'_1.2 ⟨hi₁, by omega⟩)

/-- On that heap the walk from `heap_start` ends at the epilogue after one block, and
`check_cycle` reports the cycle, yet `mm_checkheap` returns for no fuel. -/
theorem mmCheckheap_selfLoop :
    getSize selfLoopHeap 24 = 32 ∧ getSize selfLoopHeap 56 = 0 ∧
      freeNext selfLoopHeap 24 = 24 ∧ checkCycle selfLoopHeap 1 24 24 = some false ∧
      ∀ fuel, mmCheckheap fuel selfLoopHeap = none := by
  refine ⟨by decide, by decide, selfLoopHeap_freeNext,
    by simp [checkCycle, selfLoopHeap_freeNext], ?_⟩
  exact mmCheckheap_diverges (i := 1) le_rfl (by decide) fun k => by
    rw [show chain selfLoopHeap (selfLoopHeap.segList 1) k = 24 from
      Function.iterate_fixed selfLoopHeap_freeNext k]
    decide

end Walk

/-! ## The verdict -/

section Verdict

variable {s : State} {fuel : Nat}

/-- The loop over the lists ends with the verdict of `check_bucket` on its last list. -/
theorem checkLists_last {i : Nat} {b : Bool} :
    ∀ (is : List Nat) (c : Bool), checkLists fuel s (is ++ [i]) c = some b →
      checkBucket fuel s (s.segList i) = some b
  | [], _, h => by
    simp only [List.nil_append, checkLists, Option.bind_eq_bind, Option.bind_eq_some] at h
    obtain ⟨-, -, -, -, -, -, -, -, b', hb', h⟩ := h
    cases h
    exact hb'
  | j :: is, _, h => by
    simp only [List.cons_append, checkLists, Option.bind_eq_bind, Option.bind_eq_some] at h
    obtain ⟨-, -, -, -, -, -, -, -, c, -, h⟩ := h
    exact checkLists_last is c h

/-- Whenever `mm_checkheap` returns, its result is the verdict of `check_bucket` on list 14
alone: each sub-check's result overwrites `consistent`, so the prologue, the epilogue, the
walk and lists `1..13` do not count. -/
theorem mmCheckheap_verdict {b : Bool} (h : mmCheckheap fuel s = some b) :
    checkBucket fuel s (s.segList (segListNum - 1)) = some b := by
  simp only [mmCheckheap, Option.bind_eq_bind, Option.bind_eq_some] at h
  obtain ⟨-, -, -, -, -, -, -, -, -, -, c, -, h⟩ := h
  exact checkLists_last (List.range' 1 13) c h

/-- The all-zero arena `[0, 16)` with `heap_start = 8`: the prologue word is 0, so its alloc
bit is clear, and so is the epilogue's. -/
def zeroHeap : State := ⟨fun _ => 0, 0, 16, 8, fun _ => 0⟩

/-- On the zero heap the prologue and epilogue checks fail, yet `mm_checkheap` returns
true with every fuel that lets it return. -/
theorem mmCheckheap_zeroHeap :
    checkPrologue zeroHeap (zeroHeap.heapStart - wsize) = false ∧
      checkEpilogue zeroHeap 1 zeroHeap.heapStart = some false ∧
      checkBucket 1 zeroHeap (zeroHeap.segList (segListNum - 1)) = some true ∧
      ∀ fuel, mmCheckheap (fuel + 1) zeroHeap = some true :=
  have h : ∀ fuel, mmCheckheap (fuel + 1) zeroHeap = some true := fun _ => rfl
  ⟨by decide, by decide, mmCheckheap_verdict (h 0), h⟩

end Verdict

end SegMalloc.CheckerSpec
