import SegMalloc.CoalesceSpec

/-! The allocation table of a walk: the header address and size of every allocated block,
in walk order. The client's live pointers are the payload addresses of this table, so each
operation is specified as an edit of it: `malloc` adds one entry, `free` removes one, and
coalescing and splitting, which only touch free blocks, leave the rest as it is. -/
namespace SegMalloc.Table
open Memory Block Layout Invariant CoalesceSpec

/-- The allocated blocks of `bs` laid out from `a`, as (header address, size). -/
def allocs (a : Nat) : List Blk → List (Nat × Nat)
  | [] => []
  | b :: bs => if b.alloc then (a, b.size) :: allocs (a + b.size) bs else allocs (a + b.size) bs

/-- Byte `y` lies in the payload of an allocated block of `bs`. -/
def AllocBody (a : Nat) (bs : List Blk) (y : Nat) : Prop :=
  ∃ q ∈ allocs a bs, q.1 + 8 ≤ y ∧ y < q.1 + q.2

@[simp] theorem allocs_nil (a : Nat) : allocs a [] = [] := rfl

@[simp] theorem allocs_cons_alloc (a : Nat) {b : Blk} (bs : List Blk) (hb : b.alloc = true) :
    allocs a (b :: bs) = (a, b.size) :: allocs (a + b.size) bs := by
  simp [allocs, hb]

@[simp] theorem allocs_cons_free (a : Nat) {b : Blk} (bs : List Blk) (hb : b.alloc = false) :
    allocs a (b :: bs) = allocs (a + b.size) bs := by
  simp [allocs, hb]

@[simp] theorem allocs_append (a : Nat) (l₁ l₂ : List Blk) :
    allocs a (l₁ ++ l₂) = allocs a l₁ ++ allocs (a + span l₁) l₂ := by
  induction l₁ generalizing a with
  | nil => simp
  | cons b l ih => cases hb : b.alloc <;> simp [hb, ih, Nat.add_assoc]

theorem mem_allocs {a : Nat} {bs : List Blk} {z n : Nat} :
    (z, n) ∈ allocs a bs ↔ BlockAt a bs z ⟨n, true⟩ := by
  induction bs generalizing a with
  | nil => simp
  | cons b bs ih =>
    obtain ⟨sz, al⟩ := b
    rw [blockAt_cons, ← ih]
    cases al <;> simp [eq_comm]

/-- The table is sorted by address, and its blocks do not overlap. -/
theorem allocs_sorted (a : Nat) (bs : List Blk) :
    (allocs a bs).Pairwise fun p q => p.1 + p.2 ≤ q.1 := by
  induction bs generalizing a with
  | nil => simp
  | cons b bs ih =>
    cases hb : b.alloc
    · simpa [hb] using ih (a + b.size)
    · rw [allocs_cons_alloc a bs hb, List.pairwise_cons]
      exact ⟨fun ⟨z, n⟩ hq => (blockAt_bound (mem_allocs.1 hq)).1, ih _⟩

theorem allocs_nodup (a : Nat) {bs : List Blk} (hok : SizesOk bs) : (allocs a bs).Nodup :=
  (allocs_sorted a bs).imp_of_mem fun {p q} hp _ h heq => by
    obtain ⟨z, n⟩ := p
    have h16 : 16 ≤ n := (hok _ (blockAt_mem (mem_allocs.1 hp))).2
    subst heq; simp only at h; omega

/-- Absorbing a free last block keeps the table and the bytes before the merged block. -/
theorem absorbPrev_allocs (a : Nat) (pre : List Blk) :
    allocs a (absorbPrev pre).1 = allocs a pre ∧
      span (absorbPrev pre).1 + (absorbPrev pre).2 = span pre := by
  rcases List.eq_nil_or_concat' pre with rfl | ⟨L, P, rfl⟩
  · simp [absorbPrev_of_alloc]
  · cases hP : P.alloc
    · simp [absorbPrev_of_free hP, hP]
    · have hab : absorbPrev (L ++ [P]) = (L ++ [P], 0) := absorbPrev_of_alloc (by simp [hP])
      simp [hab]

/-- Two entries of the table are one block or lie apart. -/
theorem allocs_apart {a : Nat} {bs : List Blk} {e f : Nat × Nat} (hok : SizesOk bs)
    (he : e ∈ allocs a bs) (hf : f ∈ allocs a bs) (hne : e ≠ f) :
    e.1 + e.2 ≤ f.1 ∨ f.1 + f.2 ≤ e.1 := by
  obtain ⟨z, n⟩ := e
  obtain ⟨z', n'⟩ := f
  rcases blockAt_apart hok (mem_allocs.1 he) (mem_allocs.1 hf) with ⟨rfl, h⟩ | h | h
  · simp only [Blk.mk.injEq, and_true] at h
    exact absurd (by rw [h]) hne
  · exact .inl h
  · exact .inr h

/-- Coalescing a free block with its free neighbours leaves the table as it is. -/
theorem allocs_coalesceBlocks (a : Nat) (pre : List Blk) {b : Blk} (post : List Blk)
    (hb : b.alloc = false) : allocs a (coalesceBlocks pre b post) = allocs a (pre ++ b :: post) := by
  have hpre := absorbPrev_allocs a pre
  -- an absorbed successor is free, so it carries no entry
  have hpost : ∀ c, allocs (c + (absorbNext post).1) (absorbNext post).2 = allocs c post := by
    intro c
    rcases post with _ | ⟨N, post⟩
    · simp [absorbNext]
    · cases hN : N.alloc <;> simp [absorbNext, hN]
  unfold coalesceBlocks mergedSize
  rw [allocs_append, allocs_cons_free (b := ⟨_, false⟩) _ _ rfl, allocs_append,
    allocs_cons_free _ _ hb, hpre.1, ← hpost (a + span pre + b.size)]
  congr 2
  have := hpre.2
  dsimp only
  omega

/-- The table after the chosen free block `F` is allocated with `asize` of its bytes and the
surplus split off as a free block: one entry more. -/
theorem allocs_split (a : Nat) (pre post : List Blk) {F : Blk} {asize : Nat} (hF : F.alloc = false)
    (hle : asize ≤ F.size) :
    (allocs a (pre ++ ⟨asize, true⟩ ::
      (if F.size = asize then post else ⟨F.size - asize, false⟩ :: post))).Perm
      ((a + span pre, asize) :: allocs a (pre ++ F :: post)) := by
  have hend : a + span pre + asize + (F.size - asize) = a + span pre + F.size := by omega
  split_ifs with hS
  · simp [hF, ← hS, List.perm_middle]
  · simp [hF, hend, List.perm_middle]

/-- A payload byte of an allocated block lies outside every free block and the header
after it. -/
theorem AllocBody.apart {a : Nat} {bs : List Blk} {y x : Nat} {d : Blk} (hok : SizesOk bs)
    (hy : AllocBody a bs y) (hx : BlockAt a bs x d) (hd : d.alloc = false) :
    y < x ∨ x + d.size + 8 ≤ y := by
  obtain ⟨⟨z, n⟩, hq, h₁, h₂⟩ := hy
  simp only at h₁ h₂
  rcases blockAt_apart hok (mem_allocs.1 hq) hx with ⟨rfl, rfl⟩ | h | h
  · simp at hd
  · exact .inl (by simp only at h; omega)
  · exact .inr (by omega)

theorem AllocBody.outFree {a : Nat} {bs : List Blk} {y : Nat} (hok : SizesOk bs)
    (hy : AllocBody a bs y) : OutFree a bs y := fun x d hx hd =>
  (hy.apart hok hx hd).imp id (by omega)

/-- A payload byte of an allocated block lies in no word the walk reads. -/
theorem AllocBody.not_tailWord {a : Nat} {bs : List Blk} {y w : Nat} (hok : SizesOk bs)
    (hy : AllocBody a bs y) (hw : TailWords a bs w) : y < w ∨ w + 8 ≤ y := by
  obtain ⟨⟨z, n⟩, hq, h₁, h₂⟩ := hy
  simp only at h₁ h₂
  have hz := mem_allocs.1 hq
  have h16 := (hok _ (blockAt_mem hz)).2
  simp only at h16
  -- the word of the payload holding `y`
  rcases Nat.lt_or_ge (y + 8) (z + n + 1) with hlt | hge
  · have := tailWords_disjoint_body hok hz h₁ (by simp only; omega) (by simp) hw
    omega
  · have := tailWords_disjoint_body hok hz (show z + 8 ≤ z + n - 8 by omega) (by simp only; omega)
      (by simp) hw
    omega

/-- Writes into allocated payloads keep the invariant: the prologue, the walk and the list
links lie outside them. -/
theorem heapInv_of_payload {s : State} {h : Heap} {m' : Mem} (hinv : HeapInv s h)
    (hag : Agree (fun y => ¬ AllocBody s.heapStart h.blocks y) s.mem m') :
    HeapInv { s with mem := m' } h := by
  have har := hinv.arena
  have hok := har.sizes
  refine ⟨⟨har.start, har.brk, har.brk_le, hok, ?_⟩, ?_, ?_, hinv.listed, hinv.coalesced⟩
  · show loadWord m' (s.heapStart - 8) = _
    rw [loadWord_congr fun y h₁ h₂ => hag y fun ⟨⟨z, n⟩, hq, h₃, _⟩ => by
      have := (blockAt_bound (mem_allocs.1 hq)).1
      have := har.start
      simp only at h₃; omega]
    exact har.prologue
  · exact tail_of_walkAgree (fun w hw => loadWord_congr fun y h₁ h₂ => hag y fun hy => by
      rcases hy.not_tailWord hok hw with h | h <;> omega) hinv.walk
  · exact hinv.lists.frame rfl rfl fun i z hz y h₁ h₂ => hag y fun hy => by
      obtain ⟨c, hc, hfree, hlen⟩ := hinv.lists.link_in_block har hz
      rcases hy.apart hok hc hfree with h | h <;> omega

/-- The payload addresses of the allocated blocks: what the client holds. -/
def payloads (a : Nat) (bs : List Blk) : List Nat := (allocs a bs).map fun q => q.1 + 8

theorem mem_payloads {a : Nat} {bs : List Blk} {p : Nat} :
    p ∈ payloads a bs ↔ ∃ n, (p - 8, n) ∈ allocs a bs ∧ 8 ≤ p := by
  unfold payloads
  rw [List.mem_map]
  constructor
  · rintro ⟨⟨z, n⟩, hq, rfl⟩
    exact ⟨n, by simpa using hq, by omega⟩
  · rintro ⟨n, hq, h8⟩
    exact ⟨(p - 8, n), hq, by simp only; omega⟩

theorem payloads_nodup (a : Nat) {bs : List Blk} (hok : SizesOk bs) : (payloads a bs).Nodup :=
  (allocs_nodup a hok).map_on fun p hp q hq h => by
    obtain ⟨z, n⟩ := p
    obtain ⟨z', n'⟩ := q
    simp only at h
    obtain rfl : z = z' := by omega
    have := blockAt_unique hok (mem_allocs.1 hp) (mem_allocs.1 hq)
    simp only [Blk.mk.injEq, and_true] at this
    rw [this]

end SegMalloc.Table
