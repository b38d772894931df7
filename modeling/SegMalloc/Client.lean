import SegMalloc.Growth

/-! The client's view of the allocator, and that the allocator serves it. A client sees the
blocks it holds, each as its payload address and the bytes it may use, and the memory. What an
allocator is for is said over this view alone (`Serves`): a block handed out is non-`NULL`,
16-aligned, as large as asked and shares no byte with a held block; every call keeps the bytes
of the held blocks it is not passed; `free` gives its block back; `realloc` carries the old bytes
over and `calloc` hands out zeros. The view's invariant, that the held blocks are apart, is kept
by every step of this abstract specification (`Serves.wf`). Every call of a client keeping the
contract in a reachable system serves the view of that system (`call_serves`), so the invariant
holds of every reachable view. -/
namespace SegMalloc.Client
open Memory Header Block Api Layout Invariant Table MallocSpec ApiSpec Run Reachable Growth

/-! ## The client's view -/

/-- Modelled from the spec: a block as the client sees it, its payload address and the number
of bytes it may use. -/
structure Region where
  ptr : Nat
  len : Nat
  deriving DecidableEq, Repr

/-- Modelled from the spec: two regions share no byte. -/
def Region.Apart (a b : Region) : Prop := a.ptr + a.len ≤ b.ptr ∨ b.ptr + b.len ≤ a.ptr

/-- Modelled from the spec: the client's view, the blocks it holds (newest first) and the
memory. -/
structure View where
  held : List Region
  mem : Mem

/-- Modelled from the spec: a block that may be handed out for `n` bytes while `held` are held:
non-`NULL`, 16-aligned, non-empty and of at least `n` bytes, and sharing no byte with a held
block. -/
def Fresh (held : List Region) (n : Nat) (b : Region) : Prop :=
  b.ptr ≠ 0 ∧ b.ptr % 16 = 0 ∧ 0 < b.len ∧ n ≤ b.len ∧ ∀ c ∈ held, b.Apart c

/-- Modelled from the spec: every held block but the one at `p` keeps its bytes. -/
def Frame (V V' : View) (p : Nat) : Prop :=
  ∀ b ∈ V.held, b.ptr ≠ p → ∀ y, b.ptr ≤ y → y < b.ptr + b.len → V'.mem y = V.mem y

/-- Modelled from the spec: the held blocks once the one at `p` is given back. -/
def release (p : Nat) (held : List Region) : List Region := held.filter fun b => b.ptr != p

/-- Modelled from the spec: the answer to a request for `n` bytes whose new block must satisfy
`P`. Either `NULL`, with every held block and its bytes kept; or a fresh block, held first, with
the one at `p` given back and the bytes of every other one kept. -/
def Grants (V V' : View) (p n : Nat) (P : Region → Prop) : Prop :=
  (V'.held = V.held ∧ Frame V V' 0) ∨
    ∃ b, Fresh V.held n b ∧ P b ∧ V'.held = b :: release p V.held ∧ Frame V V' p

/-- Modelled from the spec: what each call may do to the client's view. `realloc` carries over
the first `min(n, L)` bytes of the old block of `L` bytes; `calloc` hands out `e · n` zeros. -/
def Serves (V : View) : Call → View → Prop
  | .init, V' => V'.held = V.held
  | .malloc n, V' => Grants V V' 0 n fun _ => True
  | .free p, V' => V'.held = release p V.held ∧ Frame V V' p
  | .realloc p n, V' =>
    if n = 0 then V'.held = release p V.held ∧ Frame V V' p
    else Grants V V' p n fun b =>
      ∀ c ∈ V.held, c.ptr = p → ∀ i < min n c.len, V'.mem (b.ptr + i) = V.mem (p + i)
  | .calloc e n, V' => Grants V V' 0 (e * n) fun b => ∀ i < e * n, V'.mem (b.ptr + i) = 0

/-- Modelled from the spec: the view's invariant. The held blocks are non-`NULL`, non-empty
and pairwise apart. -/
def View.Wf (V : View) : Prop :=
  V.held.Pairwise Region.Apart ∧ ∀ b ∈ V.held, b.ptr ≠ 0 ∧ 0 < b.len

section Abstract

variable {V V' W : View} {p n : Nat} {P Q : Region → Prop}

theorem mem_release {b : Region} {held : List Region} :
    b ∈ release p held ↔ b ∈ held ∧ b.ptr ≠ p := by
  simp [release]

theorem release_eq_self {held : List Region} (h : ∀ b ∈ held, b.ptr ≠ p) :
    release p held = held :=
  List.filter_eq_self.2 fun b hb => by simpa using h b hb

theorem frame_nil (hV : V.held = []) : Frame V V' p := fun b hb => by
  rw [hV] at hb; exact absurd hb (List.not_mem_nil b)

theorem View.Wf.release (hV : V.Wf) :
    (release p V.held).Pairwise Region.Apart ∧ ∀ b ∈ release p V.held, b.ptr ≠ 0 ∧ 0 < b.len :=
  ⟨hV.1.sublist (List.filter_sublist _), fun b hb => hV.2 b (mem_release.1 hb).1⟩

theorem Grants.mono (h : Grants V V' p n P) (hPQ : ∀ b, P b → Q b) : Grants V V' p n Q :=
  h.imp_right fun ⟨b, hb, hP, he, hf⟩ => ⟨b, hb, hPQ b hP, he, hf⟩

/-- With no block held, the answer does not depend on the rest of the view. -/
theorem Grants.of_nil (hV : V.held = []) (hW : W.held = []) (h : Grants W V' p n P) :
    Grants V V' p n P := by
  rcases h with ⟨he, -⟩ | ⟨b, hb, hP, he, -⟩
  · exact .inl ⟨he.trans (hW.trans hV.symm), frame_nil hV⟩
  · exact .inr ⟨b, hV ▸ hW ▸ hb, hP, by rw [he, hW, hV], frame_nil hV⟩

/-- A fresh block taken while the block at `p` is given back keeps the held blocks apart. -/
theorem Grants.wf (hV : V.Wf) (h : Grants V V' p n P) : V'.Wf := by
  rcases h with ⟨he, -⟩ | ⟨b, ⟨h0, -, hlen, -, hap⟩, -, he, -⟩
  · unfold View.Wf; rw [he]; exact hV
  · have hr := hV.release (p := p)
    unfold View.Wf; rw [he]
    exact ⟨List.pairwise_cons.2 ⟨fun c hc => hap c (mem_release.1 hc).1, hr.1⟩,
      List.forall_mem_cons.2 ⟨⟨h0, hlen⟩, hr.2⟩⟩

/-- Every step of the specification keeps the view's invariant. -/
theorem Serves.wf {c : Call} (hV : V.Wf) (h : Serves V c V') : V'.Wf := by
  cases c with
  | init => unfold View.Wf; rw [show V'.held = V.held from h]; exact hV
  | malloc n => exact Grants.wf hV h
  | free p => unfold View.Wf; rw [h.1]; exact hV.release
  | realloc p n =>
    simp only [Serves] at h
    split_ifs at h
    · unfold View.Wf; rw [h.1]; exact hV.release
    · exact Grants.wf hV h
  | calloc e n => exact Grants.wf hV h

end Abstract

/-! ## The view of a system -/

/-- The block the client sees at `p`: `get_payload_size(payload_to_header(p))` bytes. -/
def heldRegion (s : State) (p : Nat) : Region := ⟨p, getPayloadSize s (payloadToHeader p)⟩

/-- The client's view of a system. -/
def view (σ : Sys) : View := ⟨σ.live.map (heldRegion σ.st), σ.st.mem⟩

section Concrete

variable {s s' : State} {h h' : Heap} {live : List Nat} {p : Nat}

theorem heapInv_payloadSize (hinv : HeapInv s h) {z S : Nat}
    (hz : (z, S) ∈ allocs s.heapStart h.blocks) : getPayloadSize s z = S - 8 := by
  have hb := mem_allocs.1 hz
  obtain ⟨-, hmin, -, hend⟩ := hinv.arena.blk hb
  have := hinv.arena.brk_le
  simp only at hmin hend
  have hsz : getSize s z = S := (hinv.read hb).1
  rw [getPayloadSize, hsz, usub_of_le (by simp only [wsize]; omega) (by omega)]
  rfl

/-- A held pointer's region, read off its entry in the allocation table. -/
theorem region_of_live (hinv : HeapInv s h) (hl : live.Perm (payloads s.heapStart h.blocks))
    {q : Nat} (hq : q ∈ live) :
    ∃ S, (q - 8, S) ∈ allocs s.heapStart h.blocks ∧ 8 ≤ q ∧ 16 ≤ S ∧
      heldRegion s q = ⟨q, S - 8⟩ := by
  obtain ⟨S, hS, h8⟩ := mem_payloads.1 (hl.subset hq)
  exact ⟨S, hS, h8, (hinv.arena.blk (mem_allocs.1 hS)).2.1,
    by rw [heldRegion, payloadToHeader, heapInv_payloadSize hinv hS]⟩

theorem keeps_region (hK : Keeps s s' live p) {q : Nat} (hq : q ∈ live) (hqp : q ≠ p) :
    heldRegion s' q = heldRegion s q := by
  simp only [heldRegion, getPayloadSize, payloadToHeader, (hK q hq hqp).1]

/-- The regions of the pointers a call keeps are the held ones but `p`'s. -/
theorem keeps_held (hnd : live.Nodup) (hK : Keeps s s' live p) :
    (live.erase p).map (heldRegion s') = release p (live.map (heldRegion s)) := by
  rw [hnd.erase_eq_filter, release, List.filter_map]
  exact List.map_congr_left fun q hq =>
    keeps_region hK (List.mem_filter.1 hq).1 (by simpa using (List.mem_filter.1 hq).2)

theorem keeps_frame (hinv : HeapInv s h) (hl : live.Perm (payloads s.heapStart h.blocks))
    (hK : Keeps s s' live p) (held' : List Region) :
    Frame ⟨live.map (heldRegion s), s.mem⟩ ⟨held', s'.mem⟩ p := by
  intro b hb hbp y h₁ h₂
  obtain ⟨q, hq, rfl⟩ := List.mem_map.1 hb
  obtain ⟨S, hS, -, h16, hreg⟩ := region_of_live hinv hl hq
  simp only [hreg] at h₁ h₂ hbp
  refine (hK q hq hbp).2.2 y h₁ ?_
  rw [(hinv.read (mem_allocs.1 hS)).1]
  simp only
  omega

/-- A call that keeps every held block and hands out none answers `NULL`. -/
theorem grants_null (hinv : HeapInv s h) (hl : live.Perm (payloads s.heapStart h.blocks))
    (hK : Keeps s s' live 0) {n : Nat} {P : Region → Prop} :
    Grants ⟨live.map (heldRegion s), s.mem⟩ ⟨live.map (heldRegion s'), s'.mem⟩ p n P := by
  have h8 : ∀ q ∈ live, 8 ≤ q := fun q hq => by
    obtain ⟨_, -, h8⟩ := mem_payloads.1 (hl.subset hq); exact h8
  have e := keeps_held (hl.nodup_iff.2 (payloads_nodup _ hinv.arena.sizes)) hK
  rw [List.erase_of_not_mem fun h => absurd (h8 0 h) (by omega), release_eq_self fun b hb => by
    obtain ⟨q, hq, rfl⟩ := List.mem_map.1 hb; have := h8 q hq; simp only [heldRegion]; omega] at e
  exact .inl ⟨e, keeps_frame hinv hl hK _⟩

/-- The block `malloc` allocates for `n` bytes is fresh: non-`NULL`, 16-aligned on an arena
based at a multiple of 16, large enough, and apart from every held block. -/
theorem fresh_view {asize T q n : Nat} {s₁ : State} {h₁ : Heap} (hinv : HeapInv s h)
    (hl : live.Perm (payloads s.heapStart h.blocks)) (hlo : s.lo % 16 = 0)
    (hA : Allocated s h asize T s₁ h₁ q) (hfit : n + 8 ≤ asize)
    (hreg : heldRegion s' q = ⟨q, asize - 8⟩) :
    Fresh (live.map (heldRegion s)) n (heldRegion s' q) := by
  obtain ⟨pre, post, hbs, hq⟩ := hA.blocks
  have hok := hA.inv.arena.sizes
  have hpre : span pre % 16 = 0 := by
    have := hok; rw [hbs, sizesOk_append] at this; exact span_mod this.1
  have hstart := hinv.arena.start
  have hmin : 16 ≤ asize := (hok ⟨asize, true⟩ (by rw [hbs]; simp)).2
  rw [hreg]
  refine ⟨by simp only; omega, by simp only; omega, by simp only; omega, by simp only; omega,
    fun c hc => ?_⟩
  obtain ⟨z, hz, rfl⟩ := List.mem_map.1 hc
  obtain ⟨S, hS, h8, -, hzreg⟩ := region_of_live hinv hl hz
  have hne : q - 8 ≠ z - 8 := hA.fresh hS
  rw [hzreg]
  rcases allocs_apart hok (hA.table.symm.subset (List.mem_cons_self _ _))
    (hA.table.symm.subset (List.mem_cons_of_mem _ hS)) (fun e => hne (Prod.mk.inj e).1) with e | e
  · exact .inl (by simp only at e ⊢; omega)
  · exact .inr (by simp only at e ⊢; omega)

/-- A call that allocates `q` for `n` bytes, then keeps every held block but `p`'s, answers
with `q`. -/
theorem grants_block {asize T q n : Nat} {s₁ : State} {h₁ : Heap} {P : Region → Prop}
    (hinv : HeapInv s h) (hl : live.Perm (payloads s.heapStart h.blocks)) (hlo : s.lo % 16 = 0)
    (hA : Allocated s h asize T s₁ h₁ q) (hfit : n + 8 ≤ asize) (hinv' : HeapInv s' h')
    (hq' : (q - 8, asize) ∈ allocs s'.heapStart h'.blocks) (hK : Keeps s s' live p)
    (hP : P (heldRegion s' q)) :
    Grants ⟨live.map (heldRegion s), s.mem⟩
      ⟨heldRegion s' q :: (live.erase p).map (heldRegion s'), s'.mem⟩ p n P := by
  have hreg : heldRegion s' q = ⟨q, asize - 8⟩ := by
    rw [heldRegion, payloadToHeader, heapInv_payloadSize hinv' hq']
  refine .inr ⟨_, fresh_view hinv hl hlo hA hfit hreg, hP, ?_, keeps_frame hinv hl hK _⟩
  rw [keeps_held (hl.nodup_iff.2 (payloads_nodup _ hinv.arena.sizes)) hK]

end Concrete

/-! ## Each call serves the view -/

section Calls

variable (ok : Nat → Bool) {s : State} {live : List Nat}

theorem grants_nil {V V' : View} {p n : Nat} {P : Region → Prop} (hV : V.held = [])
    (h : V'.held = []) : Grants V V' p n P :=
  .inl ⟨h.trans hV.symm, frame_nil hV⟩

theorem malloc_grants {n : Nat} {r : State × Nat} (hL : Live s live) (hlo : s.lo % 16 = 0)
    (hn : n ≤ 2 ^ 64 - 24) (hr : malloc ok s n = some r) :
    Grants ⟨live.map (heldRegion s), s.mem⟩ ⟨(addLive r.2 live).map (heldRegion r.1), r.1.mem⟩
      0 n fun _ => True := by
  obtain ⟨r₀, hr₀, -, hK⟩ := malloc_live ok hL hn
  obtain rfl : r = r₀ := Option.some.inj (hr.symm.trans hr₀)
  have h0 := hL.erase_zero
  obtain ⟨hst, h, hinv, hl⟩ := hL
  by_cases hq : r.2 = 0
  · rw [hq, addLive_zero]; exact grants_null hinv hl hK
  have hn0 : n ≠ 0 := by rintro rfl; rw [malloc_zero ok hst] at hr; cases hr; exact hq rfl
  obtain ⟨h16, hmin, hlt, hfit⟩ := adjustSize_bounds hn
  obtain ⟨r', hr', ⟨hr0, -⟩ | ⟨-, S, h', hA, -⟩⟩ := malloc_spec ok hinv hst hn0 h16 hmin hlt
  · rw [Option.some.inj (hr.symm.trans hr'), hr0] at hq; exact absurd rfl hq
  obtain rfl := Option.some.inj (hr'.symm.trans hr)
  rw [addLive, if_neg hq, List.map_cons]
  have := grants_block hinv hl hlo hA hfit hA.inv
    (by rw [hA.heapStart]; exact hA.table.symm.subset (List.mem_cons_self _ _)) hK
    (P := fun _ => True) trivial
  rwa [h0] at this

theorem free_serves {p : Nat} {s' : State} (hL : Live s live) (hp : p = 0 ∨ p ∈ live)
    (hf : free s p = some s') :
    Serves ⟨live.map (heldRegion s), s.mem⟩ (.free p)
      ⟨(live.erase p).map (heldRegion s'), s'.mem⟩ := by
  obtain ⟨s₀, hf₀, -, hK⟩ := free_live hL hp
  obtain rfl : s' = s₀ := Option.some.inj (hf.symm.trans hf₀)
  obtain ⟨-, h, hinv, hl⟩ := hL
  exact ⟨keeps_held (hl.nodup_iff.2 (payloads_nodup _ hinv.arena.sizes)) hK,
    keeps_frame hinv hl hK _⟩

theorem realloc_serves {p n : Nat} {r : State × Nat} (hL : Live s live) (hlo : s.lo % 16 = 0)
    (hp : p = 0 ∨ p ∈ live) (hn : n ≤ 2 ^ 64 - 24) (hr : realloc ok s p n = some r) :
    Serves ⟨live.map (heldRegion s), s.mem⟩ (.realloc p n)
      ⟨(if n = 0 then live.erase p else if r.2 = 0 then live else addLive r.2 (live.erase p)).map
        (heldRegion r.1), r.1.mem⟩ := by
  obtain ⟨r₀, hr₀, -, hK⟩ := realloc_live ok hL hp hn
  obtain rfl : r = r₀ := Option.some.inj (hr.symm.trans hr₀)
  have h0 := hL.erase_zero
  have hL₀ := hL
  obtain ⟨hst, h, hinv, hl⟩ := hL
  by_cases hn0 : n = 0
  · -- `realloc(p, 0)` frees `p`
    simp only [Serves, if_pos hn0]
    exact ⟨keeps_held (hl.nodup_iff.2 (payloads_nodup _ hinv.arena.sizes)) hK,
      keeps_frame hinv hl hK _⟩
  simp only [Serves, if_neg hn0]
  rcases hp with rfl | hp
  · -- `realloc(NULL, n)` is `malloc(n)`
    rw [realloc_null ok s hn0] at hr
    rw [h0, show (if r.2 = 0 then live else addLive r.2 live) = addLive r.2 live by
      split_ifs with hq
      · rw [hq, addLive_zero]
      · rfl]
    refine (malloc_grants ok hL₀ hlo hn hr).mono fun b _ c hc hc0 => absurd hc0 ?_
    obtain ⟨q, hq, rfl⟩ := List.mem_map.1 hc
    obtain ⟨S, -, h8, -, hreg⟩ := region_of_live hinv hl hq
    rw [hreg]; simp only; omega
  obtain ⟨S, hS, h8⟩ := mem_payloads.1 (hl.subset hp)
  obtain ⟨h16, hmin, hlt, hfit⟩ := adjustSize_bounds hn
  obtain ⟨⟨s₁, q⟩, hm, ⟨hr', -⟩ | ⟨hq, T, h₁, hA, -⟩⟩ := malloc_spec ok hinv hst hn0 h16 hmin hlt
  · -- no block: `NULL`, with nothing changed
    obtain ⟨rfl, rfl⟩ := Prod.mk.inj hr'
    obtain rfl : r = (s₁, 0) := by
      rw [realloc_eq ok s₁ (by omega) hn0, hm] at hr; exact (Option.some.inj hr).symm
    exact grants_null hinv hl (hL₀.keeps_self 0)
  obtain ⟨s', h', hre, hinv', hperm, -, hst', -, hcopy⟩ :=
    realloc_spec hinv hS h8 hn0 hm hq hA hfit
  obtain rfl := Option.some.inj (hre.symm.trans hr)
  simp only [if_neg hq, addLive, List.map_cons]
  refine grants_block hinv hl hlo hA hfit hinv' ?_ hK ?_
  · -- the new block stays in the table once `p` is freed
    rw [hst']
    exact (List.mem_cons.1 (hperm.symm.subset (List.mem_cons_self _ _))).resolve_left
      fun e => hA.fresh hS (Prod.mk.inj e).1
  · -- the first `min(n, L)` bytes are copied
    intro c hc hcp i hi
    obtain ⟨z, -, rfl⟩ := List.mem_map.1 hc
    obtain rfl : z = p := hcp
    rw [heldRegion, payloadToHeader, heapInv_payloadSize hinv hS] at hi
    exact hcopy i hi

theorem calloc_grants {e n : Nat} {r : State × Nat} (hL : Live s live) (hlo : s.lo % 16 = 0)
    (hen : e * n ≤ 2 ^ 64 - 24) (hr : calloc ok s e n = some r) :
    Grants ⟨live.map (heldRegion s), s.mem⟩ ⟨(addLive r.2 live).map (heldRegion r.1), r.1.mem⟩
      0 (e * n) fun b => ∀ i < e * n, r.1.mem (b.ptr + i) = 0 := by
  obtain ⟨r₀, hr₀, -, hK⟩ := calloc_live ok hL hen
  obtain rfl : r = r₀ := Option.some.inj (hr.symm.trans hr₀)
  have h0 := hL.erase_zero
  obtain ⟨hst, h, hinv, hl⟩ := hL
  by_cases hq : r.2 = 0
  · rw [hq, addLive_zero]; exact grants_null hinv hl hK
  have he : e ≠ 0 := by rintro rfl; simp [calloc] at hr; rw [← hr] at hq; exact hq rfl
  have hlt : e * n < 2 ^ 64 := by omega
  have hz : e * n ≠ 0 := by
    intro hz
    rw [calloc_eq ok s he hlt, hz, malloc_zero ok hst] at hr
    simp at hr; rw [← hr] at hq; exact hq rfl
  obtain ⟨h16, hmin, hlt', hfit⟩ := adjustSize_bounds hen
  obtain ⟨⟨s₁, q⟩, hm, ⟨hr', -⟩ | ⟨hq', T, h₁, hA, -⟩⟩ := malloc_spec ok hinv hst hz h16 hmin hlt'
  · obtain ⟨rfl, rfl⟩ := Prod.mk.inj hr'
    rw [calloc_eq ok s₁ he hlt, hm] at hr
    simp at hr; rw [← hr] at hq; exact absurd rfl hq
  obtain ⟨s', hc, hinv', -, hst', -, -, hzero⟩ := calloc_spec he hlt hm hq' hA hfit
  obtain rfl := Option.some.inj (hc.symm.trans hr)
  simp only [addLive, if_neg hq', List.map_cons]
  have := grants_block (P := fun b => ∀ i < e * n, s'.mem (b.ptr + i) = 0) hinv hl hlo hA hfit
    hinv' (by rw [hst']; exact hA.table.symm.subset (List.mem_cons_self _ _)) hK hzero
  rwa [h0] at this

/-! On the uninitialized heap no block is held; `malloc` and `calloc` run `mm_init` first. -/

theorem malloc_grants_uninit {n : Nat} {r : State × Nat} (hU : Uninit s) (hlo : s.lo % 16 = 0)
    (hn : n ≤ 2 ^ 64 - 24) (hr : malloc ok s n = some r) :
    Grants ⟨[], s.mem⟩ ⟨(addLive r.2 []).map (heldRegion r.1), r.1.mem⟩ 0 n fun _ => True := by
  obtain ⟨s₁, b, hi, -, hL₁⟩ := mmInit_sys ok hU
  have hlo₁ : s₁.lo % 16 = 0 := (mmInit_grows hi).1 ▸ hlo
  cases b
  · rw [malloc_uninit ok n hU.1 hi fun h => absurd h (by decide)] at hr
    cases hr; exact grants_nil rfl rfl
  · rw [malloc_uninit ok n hU.1 hi fun _ => (hL₁ rfl).1, if_pos rfl] at hr
    exact (malloc_grants ok (hL₁ rfl) hlo₁ hn hr).of_nil rfl rfl

theorem calloc_grants_uninit {e n : Nat} {r : State × Nat} (hU : Uninit s) (hlo : s.lo % 16 = 0)
    (hen : e * n ≤ 2 ^ 64 - 24) (hr : calloc ok s e n = some r) :
    Grants ⟨[], s.mem⟩ ⟨(addLive r.2 []).map (heldRegion r.1), r.1.mem⟩ 0 (e * n)
      fun b => ∀ i < e * n, r.1.mem (b.ptr + i) = 0 := by
  by_cases he : e = 0
  · subst he; simp [calloc] at hr; rw [← hr]; exact grants_nil rfl rfl
  have hlt : e * n < 2 ^ 64 := by omega
  obtain ⟨s₁, b, hi, -, hL₁⟩ := mmInit_sys ok hU
  have hlo₁ : s₁.lo % 16 = 0 := (mmInit_grows hi).1 ▸ hlo
  rw [calloc_eq ok s he hlt] at hr
  cases b
  · rw [malloc_uninit ok _ hU.1 hi fun h => absurd h (by decide)] at hr
    simp at hr; rw [← hr]; exact grants_nil rfl rfl
  · rw [malloc_uninit ok _ hU.1 hi fun _ => (hL₁ rfl).1, if_pos rfl, ← calloc_eq ok s₁ he hlt] at hr
    exact (calloc_grants ok (hL₁ rfl) hlo₁ hen hr).of_nil rfl rfl

end Calls

/-- Each call a client keeping the contract makes on a system satisfying `SysInv`, over an arena
based at a multiple of 16, serves the client's view. -/
theorem sysInv_serves (ok : Nat → Bool) {σ σ' : Sys} {c : Call} (hI : SysInv σ)
    (hlo : σ.st.lo % 16 = 0) (hc : InitOnce σ c) (h : σ.call ok c = some σ') :
    Serves (view σ) c (view σ') := by
  obtain ⟨st, live⟩ := σ
  rcases hI with ⟨hU, rfl⟩ | hL
  · -- the uninitialized heap: every pointer passed back is `NULL`
    cases c with
    | init =>
      obtain ⟨r, -, rfl⟩ := Option.map_eq_some'.1 h
      exact (rfl : ([] : List Region) = [])
    | malloc n =>
      obtain ⟨r, hr, rfl⟩ := Option.map_eq_some'.1 h
      exact malloc_grants_uninit ok hU hlo hc.1 hr
    | free p =>
      obtain rfl : p = 0 := hc.1.resolve_right (List.not_mem_nil p)
      rw [Sys.call, free_zero, Option.map_some'] at h
      cases h
      exact ⟨rfl, frame_nil rfl⟩
    | realloc p n =>
      obtain rfl : p = 0 := hc.1.1.resolve_right (List.not_mem_nil p)
      obtain ⟨r, hr, rfl⟩ := Option.map_eq_some'.1 h
      show Serves ⟨[], st.mem⟩ _ _
      by_cases hn0 : n = 0
      · simp only [Serves, if_pos hn0]; exact ⟨rfl, frame_nil rfl⟩
      simp only [Serves, if_neg hn0, List.erase_nil]
      rw [realloc_null ok st hn0] at hr
      rw [show (if r.2 = 0 then [] else addLive r.2 []) = addLive r.2 [] by
        split_ifs with hq
        · rw [hq, addLive_zero]
        · rfl]
      exact (malloc_grants_uninit ok hU hlo hc.1.2 hr).mono fun b _ c hc => absurd hc (by simp)
    | calloc e n =>
      obtain ⟨r, hr, rfl⟩ := Option.map_eq_some'.1 h
      exact calloc_grants_uninit ok hU hlo hc.1 hr
  · cases c with
    | init => exact absurd (hc.2 rfl) hL.1
    | malloc n =>
      obtain ⟨r, hr, rfl⟩ := Option.map_eq_some'.1 h
      exact malloc_grants ok hL hlo hc.1 hr
    | free p =>
      obtain ⟨s', hf, rfl⟩ := Option.map_eq_some'.1 h
      exact free_serves hL hc.1 hf
    | realloc p n =>
      obtain ⟨r, hr, rfl⟩ := Option.map_eq_some'.1 h
      exact realloc_serves ok hL hlo hc.1.1 hc.1.2 hr
    | calloc e n =>
      obtain ⟨r, hr, rfl⟩ := Option.map_eq_some'.1 h
      exact calloc_grants ok hL hlo hc.1 hr

/-- In every reachable system over an arena based at a multiple of 16, every call of a client
keeping the contract returns, and what it does to the client's view is what `Serves` allows:
the allocator refines its abstract specification. -/
theorem call_serves (ok : Nat → Bool) {σ : Sys} {c : Call} (hR : Reach InitOnce σ)
    (hlo : σ.st.lo % 16 = 0) (hc : InitOnce σ c) :
    ∃ σ', σ.call ok c = some σ' ∧ Reach InitOnce σ' ∧ Serves (view σ) c (view σ') := by
  obtain ⟨σ', h, -, -⟩ := hR.sysInv.call hc ok
  exact ⟨σ', h, .step ok c hR hc h, sysInv_serves ok hR.sysInv hlo hc h⟩

/-- A second `malloc(1)`, while the client holds the block of 16: that block is kept, and the
new one lies apart from it. -/
theorem call_serves_mallocSys : Reach InitOnce mallocSys ∧ mallocSys.st.lo % 16 = 0 ∧
    InitOnce mallocSys (.malloc 1) ∧ ∃ σ', mallocSys.call (fun _ => true) (.malloc 1) = some σ' ∧
      Reach InitOnce σ' ∧ Serves (view mallocSys) (.malloc 1) (view σ') :=
  have hc : InitOnce mallocSys (.malloc 1) := ⟨show 1 ≤ 2 ^ 64 - 24 by decide, Call.noConfusion⟩
  ⟨reach_mallocSys, by decide, hc, call_serves _ reach_mallocSys (by decide) hc⟩

/-- The view's invariant holds in every reachable system over an arena based at a multiple of
16: it holds of the empty view, each call serves the view, and each step of the specification
keeps the invariant. -/
theorem view_wf_reach {σ : Sys} (hR : Reach InitOnce σ) (hlo : σ.st.lo % 16 = 0) :
    (view σ).Wf := by
  induction hR with
  | start s => exact ⟨List.Pairwise.nil, fun b hb => absurd hb (List.not_mem_nil b)⟩
  | step ok c hR hc h ih =>
    have hlo₀ := (call_arena h).1 ▸ hlo
    exact (sysInv_serves ok hR.sysInv hlo₀ hc h).wf (ih hlo₀)

/-- While the client holds the blocks of `malloc(100)` and `malloc(1)`, the two lie apart. -/
theorem view_wf_heldSys : Reach InitOnce heldSys ∧ heldSys.st.lo % 16 = 0 ∧ (view heldSys).Wf :=
  ⟨reach_heldSys, heldSys_lo, view_wf_reach reach_heldSys heldSys_lo⟩

end SegMalloc.Client
