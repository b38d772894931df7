import SegMalloc.Client

/-! The client stores into its blocks. Between two calls a client may write anything into the
blocks it holds: `get_payload_size` bytes from each pointer. The allocator keeps its headers,
footers and list links outside every payload, and the prologue and epilogue words before and
after all blocks, so such stores break nothing. Every system reached by runs that interleave
calls keeping the contract with stores into held blocks satisfies the system invariant, and
every call from it returns and keeps the other held blocks. -/
namespace SegMalloc.ClientStores
open Memory Header Block Invariant Table Run Reachable Client

/-- Modelled from the spec: the client's stores between two calls leave memory `m`, which
differs from the state's only inside the blocks the client holds. -/
def Stores (σ : Sys) (m : Mem) : Prop :=
  Agree (fun y => ∀ b ∈ (view σ).held, y < b.ptr ∨ b.ptr + b.len ≤ y) σ.st.mem m

/-- Modelled from the spec: the systems reached from the uninitialized allocator by runs of
calls allowed by `P` and of stores of the client into the blocks it holds. -/
inductive ReachStores (P : Sys → Call → Prop) : Sys → Prop
  | start (s : State) : s.heapStart = 0 → s.brk = s.lo → (∀ i < segListNum, s.segList i = 0) →
      ReachStores P ⟨s, []⟩
  | step {σ σ' : Sys} (ok : Nat → Bool) (c : Call) : ReachStores P σ → P σ c →
      σ.call ok c = some σ' → ReachStores P σ'
  | store {σ : Sys} (m : Mem) : ReachStores P σ → Stores σ m →
      ReachStores P ⟨{ σ.st with mem := m }, σ.live⟩

/-- Runs of calls alone are runs with no store. -/
theorem reachStores_of_reach {P : Sys → Call → Prop} {σ : Sys} (hR : Reach P σ) : ReachStores P σ := by
  induction hR with
  | start s h₀ h₁ h₂ => exact .start s h₀ h₁ h₂
  | step ok c _ hP hc ih => exact .step ok c ih hP hc

/-- Stores into held blocks keep the heap invariant, with the same abstract heap: every byte the
allocator relies on lies outside the payloads of the allocated blocks. -/
theorem heapInv_store {σ : Sys} {m : Mem} {h : Heap} (hinv : HeapInv σ.st h)
    (hl : σ.live.Perm (payloads σ.st.heapStart h.blocks)) (hm : Stores σ m) :
    HeapInv { σ.st with mem := m } h := by
  refine heapInv_of_payload hinv fun y hy => hm y fun b hb => ?_
  -- a held block is the payload of an allocated block, and `y` lies in no such payload
  obtain ⟨q, hq, rfl⟩ := List.mem_map.1 hb
  obtain ⟨S, hS, h8, -, hreg⟩ := region_of_live hinv hl hq
  rw [hreg]
  by_contra hin
  simp only [not_or, not_lt] at hin
  exact hy ⟨_, hS, by simp only; omega, by simp only; omega⟩

/-- Stores into held blocks keep `SysInv`. -/
theorem sysInv_store {σ : Sys} {m : Mem} (hI : SysInv σ) (hm : Stores σ m) :
    SysInv ⟨{ σ.st with mem := m }, σ.live⟩ := by
  rcases hI with ⟨hU, h0⟩ | ⟨hst, h, hinv, hl⟩
  · exact .inl ⟨hU, h0⟩
  · exact .inr ⟨hst, h, heapInv_store hinv hl hm, hl⟩

/-- Every system reached by calls keeping the contract and stores into held blocks satisfies
`SysInv`. -/
theorem ReachStores.sysInv {σ : Sys} (hR : ReachStores InitOnce σ) : SysInv σ := by
  induction hR with
  | start s h₀ h₁ h₂ => exact .inl ⟨⟨h₀, h₁, h₂⟩, rfl⟩
  | step ok _ _ hP hc ih =>
    obtain ⟨σ', hc', hI, -⟩ := ih.call hP ok
    exact Option.some.inj (hc.symm.trans hc') ▸ hI
  | store m _ hm ih => exact sysInv_store ih hm

/-- Every system reached by runs that interleave calls keeping the contract, with `mm_init`
only on the uninitialized heap, and stores of the client into the blocks it holds satisfies
`SysInv`; and every call the client may make from it, with any answers of the arena, returns,
keeps `SysInv`, and keeps the blocks of the held pointers it is not passed. -/
theorem stores_reach {σ : Sys} (hR : ReachStores InitOnce σ) :
    SysInv σ ∧ ∀ (ok : Nat → Bool) (c : Call), InitOnce σ c →
      ∃ σ', σ.call ok c = some σ' ∧ SysInv σ' ∧ Keeps σ.st σ'.st σ.live c.ptr :=
  ⟨hR.sysInv, fun ok _ hc => hR.sysInv.call hc ok⟩

/-- After `mm_init` and `malloc(1)`, the client fills the 8 bytes of its block with 7. -/
def storedSys : Sys :=
  ⟨{ mallocSys.st with mem := memset mallocSys.st.mem 16 7 8 }, mallocSys.live⟩

/-- The client's store of `storedSys` lies inside the block it holds. -/
theorem storedSys_stores : Stores mallocSys (memset mallocSys.st.mem 16 7 8) := fun y hy => by
  have hlen : (heldRegion mallocSys.st 16).len = 8 := by decide
  have := hy _ (List.mem_singleton_self _)
  rw [hlen] at this
  simp only [memset]
  rw [if_neg (by simp only [heldRegion] at this; omega)]

theorem reachStores_storedSys : ReachStores InitOnce storedSys :=
  .store _ (reachStores_of_reach reach_mallocSys) storedSys_stores

theorem stores_reach_storedSys : ReachStores InitOnce storedSys ∧ SysInv storedSys ∧
    ∀ (ok : Nat → Bool) (c : Call), InitOnce storedSys c →
      ∃ σ', storedSys.call ok c = some σ' ∧ SysInv σ' ∧
        Keeps storedSys.st σ'.st storedSys.live c.ptr :=
  ⟨reachStores_storedSys, stores_reach reachStores_storedSys⟩

end SegMalloc.ClientStores
