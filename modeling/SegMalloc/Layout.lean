import SegMalloc.Block

/-! The implicit list as an abstract sequence of blocks. `Seg m a f bs` says that the
blocks `bs`, laid out from `a`, have their headers in memory, each with the flags of
the block before it (the first with `f`), and that every free block of more than 16
bytes has a footer equal to its header. `Tail` adds the epilogue after the last block,
and `HdTail` is `Tail` without the first block's footer. `BlockAt a bs x b` places
block `b` at address `x`. -/
namespace SegMalloc.Layout
open Memory Header Block

/-- A block of the implicit list. -/
structure Blk where
  size : Nat
  alloc : Bool
  deriving DecidableEq, Repr

/-- The `(prev_alloc, prev_mini)` flags of the header after `b`. -/
def Blk.flags (b : Blk) : Bool × Bool := (b.alloc, b.size == 16)

/-- Bytes covered by a block sequence. -/
def span : List Blk → Nat
  | [] => 0
  | b :: bs => b.size + span bs

/-- The flags of the header after `bs`, those before it being `f`. -/
def endFlags (f : Bool × Bool) : List Blk → Bool × Bool
  | [] => f
  | b :: bs => endFlags b.flags bs

/-- The header of `b` at `a`, and for a free block of more than 16 bytes its footer. -/
def BlkOk (m : Mem) (a : Nat) (f : Bool × Bool) (b : Blk) : Prop :=
  loadWord m a = pack b.size b.alloc f.1 f.2 ∧
    (b.alloc = false → 16 < b.size → loadWord m (a + b.size - 8) = pack b.size false f.1 f.2)

def Seg (m : Mem) : Nat → Bool × Bool → List Blk → Prop
  | _, _, [] => True
  | a, f, b :: bs => BlkOk m a f b ∧ Seg m (a + b.size) b.flags bs

/-- The epilogue header: size 0, allocated. -/
def Epi (m : Mem) (a : Nat) (f : Bool × Bool) : Prop := loadWord m a = pack 0 true f.1 f.2

def Tail (m : Mem) : Nat → Bool × Bool → List Blk → Prop
  | a, f, [] => Epi m a f
  | a, f, b :: bs => BlkOk m a f b ∧ Tail m (a + b.size) b.flags bs

def HdTail (m : Mem) (a : Nat) (f : Bool × Bool) : List Blk → Prop
  | [] => Epi m a f
  | b :: bs => loadWord m a = pack b.size b.alloc f.1 f.2 ∧ Tail m (a + b.size) b.flags bs

/-- The header and footer words that `Seg` reads. -/
def HdrFtr : Nat → List Blk → Nat → Prop
  | _, [], _ => False
  | a, b :: bs, x =>
    x = a ∨ (b.alloc = false ∧ 16 < b.size ∧ x = a + b.size - 8) ∨ HdrFtr (a + b.size) bs x

/-- The words that `Tail` reads: those of `Seg` and the epilogue. -/
def TailWords (a : Nat) (bs : List Blk) (x : Nat) : Prop := HdrFtr a bs x ∨ x = a + span bs

def BlockAt (a : Nat) (bs : List Blk) (x : Nat) (b : Blk) : Prop :=
  ∃ pre post, bs = pre ++ b :: post ∧ x = a + span pre

/-- Every block is 16-aligned in size and at least 16 bytes. -/
def SizesOk (bs : List Blk) : Prop := ∀ b ∈ bs, b.size % 16 = 0 ∧ 16 ≤ b.size

/-! ## Sequences -/

@[simp] theorem span_nil : span [] = 0 := rfl
@[simp] theorem span_cons (b : Blk) (bs : List Blk) : span (b :: bs) = b.size + span bs := rfl

@[simp] theorem span_append (l₁ l₂ : List Blk) : span (l₁ ++ l₂) = span l₁ + span l₂ := by
  induction l₁ with
  | nil => simp
  | cons b l ih => simp [ih]; omega

@[simp] theorem endFlags_nil (f : Bool × Bool) : endFlags f [] = f := rfl
@[simp] theorem endFlags_cons (f : Bool × Bool) (b : Blk) (bs : List Blk) :
    endFlags f (b :: bs) = endFlags b.flags bs := rfl

theorem endFlags_append (f : Bool × Bool) (l₁ l₂ : List Blk) :
    endFlags f (l₁ ++ l₂) = endFlags (endFlags f l₁) l₂ := by
  induction l₁ generalizing f with
  | nil => rfl
  | cons b l ih => exact ih b.flags

@[simp] theorem endFlags_append_singleton (f : Bool × Bool) (l : List Blk) (b : Blk) :
    endFlags f (l ++ [b]) = b.flags := by
  rw [endFlags_append]; rfl

theorem sizesOk_append {l₁ l₂ : List Blk} : SizesOk (l₁ ++ l₂) ↔ SizesOk l₁ ∧ SizesOk l₂ :=
  List.forall_mem_append

theorem sizesOk_cons {b : Blk} {bs : List Blk} :
    SizesOk (b :: bs) ↔ (b.size % 16 = 0 ∧ 16 ≤ b.size) ∧ SizesOk bs :=
  List.forall_mem_cons

theorem span_mod {bs : List Blk} (h : SizesOk bs) : span bs % 16 = 0 := by
  induction bs with
  | nil => rfl
  | cons b bs ih =>
    obtain ⟨hb, hbs⟩ := sizesOk_cons.1 h
    have := ih hbs; simp only [span_cons]; omega

theorem length_le_span {bs : List Blk} (h : SizesOk bs) : 16 * bs.length ≤ span bs := by
  induction bs with
  | nil => simp
  | cons b bs ih =>
    obtain ⟨hb, hbs⟩ := sizesOk_cons.1 h
    have := ih hbs; simp only [span_cons, List.length_cons]; omega

/-! ## Walks -/

@[simp] theorem seg_nil (m : Mem) (a : Nat) (f : Bool × Bool) : Seg m a f [] = True := rfl

theorem seg_cons (m : Mem) (a : Nat) (f : Bool × Bool) (b : Blk) (bs : List Blk) :
    Seg m a f (b :: bs) = (BlkOk m a f b ∧ Seg m (a + b.size) b.flags bs) := rfl

theorem tail_nil (m : Mem) (a : Nat) (f : Bool × Bool) : Tail m a f [] = Epi m a f := rfl

theorem tail_cons (m : Mem) (a : Nat) (f : Bool × Bool) (b : Blk) (bs : List Blk) :
    Tail m a f (b :: bs) = (BlkOk m a f b ∧ Tail m (a + b.size) b.flags bs) := rfl

theorem hdrFtr_cons (a : Nat) (b : Blk) (bs : List Blk) (x : Nat) :
    HdrFtr a (b :: bs) x = (x = a ∨ (b.alloc = false ∧ 16 < b.size ∧ x = a + b.size - 8) ∨
      HdrFtr (a + b.size) bs x) := rfl

theorem seg_append {m : Mem} {l₁ : List Blk} :
    ∀ {a : Nat} {f : Bool × Bool} {l₂ : List Blk},
      Seg m a f (l₁ ++ l₂) ↔ Seg m a f l₁ ∧ Seg m (a + span l₁) (endFlags f l₁) l₂ := by
  induction l₁ with
  | nil => intro a f l₂; simp
  | cons b l ih =>
    intro a f l₂
    simp only [List.cons_append, seg_cons, ih, span_cons, endFlags_cons, Nat.add_assoc, and_assoc]

theorem tail_append {m : Mem} {l₁ : List Blk} :
    ∀ {a : Nat} {f : Bool × Bool} {l₂ : List Blk},
      Tail m a f (l₁ ++ l₂) ↔ Seg m a f l₁ ∧ Tail m (a + span l₁) (endFlags f l₁) l₂ := by
  induction l₁ with
  | nil => intro a f l₂; simp
  | cons b l ih =>
    intro a f l₂
    simp only [List.cons_append, tail_cons, seg_cons, ih, span_cons, endFlags_cons,
      Nat.add_assoc, and_assoc]

theorem hdTail_of_tail {m : Mem} {a : Nat} {f : Bool × Bool} :
    ∀ {bs : List Blk}, Tail m a f bs → HdTail m a f bs
  | [], h => h
  | _ :: _, h => ⟨h.1.1, h.2⟩

/-- A header rewrite after an allocated block or the epilogue completes a `HdTail`. -/
theorem tail_of_hdTail {m : Mem} {a : Nat} {f : Bool × Bool} :
    ∀ {bs : List Blk}, HdTail m a f bs → (∀ b ∈ bs.head?, b.alloc = true) → Tail m a f bs
  | [], h, _ => h
  | b :: _, h, hb => ⟨⟨h.1, fun h' => by simp [hb b rfl] at h'⟩, h.2⟩

theorem hdrFtr_append {l₁ : List Blk} :
    ∀ {a : Nat} {l₂ : List Blk} {x : Nat},
      HdrFtr a (l₁ ++ l₂) x ↔ HdrFtr a l₁ x ∨ HdrFtr (a + span l₁) l₂ x := by
  induction l₁ with
  | nil => intro a l₂ x; simp [HdrFtr]
  | cons b l ih =>
    intro a l₂ x
    simp only [List.cons_append, hdrFtr_cons, ih, span_cons, Nat.add_assoc, or_assoc]

/-- A header or footer word lies within the blocks. -/
theorem hdrFtr_bound : ∀ {a : Nat} {bs : List Blk} {x : Nat},
    SizesOk bs → HdrFtr a bs x → a ≤ x ∧ x + 8 ≤ a + span bs
  | _, [], _, _, h => h.elim
  | a, b :: bs, x, hok, h => by
    obtain ⟨hb, hbs⟩ := sizesOk_cons.1 hok
    rcases h with rfl | ⟨-, -, rfl⟩ | h
    · simp; omega
    · simp; omega
    · have := hdrFtr_bound hbs h; simp; omega

/-! ## Frames -/

theorem blkOk_frame {m m' : Mem} {a : Nat} {f : Bool × Bool} {b : Blk}
    (hag : ∀ x, HdrFtr a [b] x → loadWord m' x = loadWord m x) (h : BlkOk m a f b) :
    BlkOk m' a f b :=
  ⟨(hag a (.inl rfl)).trans h.1, fun h1 h2 => (hag _ (.inr (.inl ⟨h1, h2, rfl⟩))).trans (h.2 h1 h2)⟩

/-- `Seg` reads only the header and footer words. -/
theorem seg_frame {m m' : Mem} :
    ∀ {a : Nat} {f : Bool × Bool} {bs : List Blk},
      (∀ x, HdrFtr a bs x → loadWord m' x = loadWord m x) → Seg m a f bs → Seg m' a f bs
  | _, _, [], _, _ => trivial
  | _, _, _ :: _, hag, ⟨hb, hr⟩ =>
    ⟨blkOk_frame (fun x hx => hag x (by simp only [hdrFtr_cons, HdrFtr] at hx ⊢; tauto)) hb,
      seg_frame (fun x hx => hag x (.inr (.inr hx))) hr⟩

theorem tail_frame {m m' : Mem} {a : Nat} {f : Bool × Bool} {bs : List Blk}
    (hag : ∀ x, TailWords a bs x → loadWord m' x = loadWord m x) (h : Tail m a f bs) :
    Tail m' a f bs := by
  rw [← List.append_nil bs, tail_append] at h ⊢
  exact ⟨seg_frame (fun x hx => hag x (.inl hx)) h.1, (hag _ (.inr rfl)).trans h.2⟩

theorem tailWords_bound {a : Nat} {bs : List Blk} {x : Nat} (hok : SizesOk bs)
    (h : TailWords a bs x) : a ≤ x ∧ x ≤ a + span bs := by
  rcases h with h | rfl
  · have := hdrFtr_bound hok h; omega
  · omega

/-- A walk survives any change of memory outside `[a, a + span bs + 8)`. -/
theorem tail_frame_outside {m m' : Mem} {a : Nat} {f : Bool × Bool} {bs : List Blk}
    (hok : SizesOk bs) (hag : ∀ x, a ≤ x → x < a + span bs + 8 → m' x = m x)
    (h : Tail m a f bs) : Tail m' a f bs :=
  tail_frame (fun x hx => loadWord_congr fun y h₁ h₂ => by
    have := tailWords_bound hok hx; exact hag y (by omega) (by omega)) h

theorem seg_frame_outside {m m' : Mem} {a : Nat} {f : Bool × Bool} {bs : List Blk}
    (hok : SizesOk bs) (hag : ∀ x, a ≤ x → x < a + span bs → m' x = m x)
    (h : Seg m a f bs) : Seg m' a f bs :=
  seg_frame (fun x hx => loadWord_congr fun y h₁ h₂ => by
    have := hdrFtr_bound hok hx; exact hag y (by omega) (by omega)) h

/-! ## Positions -/

@[simp] theorem not_blockAt_nil {a x : Nat} {c : Blk} : ¬ BlockAt a [] x c :=
  fun ⟨pre, post, h, _⟩ => by simp at h

theorem blockAt_cons {a : Nat} {b : Blk} {bs : List Blk} {x : Nat} {c : Blk} :
    BlockAt a (b :: bs) x c ↔ (x = a ∧ c = b) ∨ BlockAt (a + b.size) bs x c := by
  constructor
  · rintro ⟨_ | ⟨d, pre⟩, post, h, rfl⟩
    · simp only [List.nil_append, List.cons.injEq] at h
      exact .inl ⟨by simp, h.1.symm⟩
    · simp only [List.cons_append, List.cons.injEq] at h
      obtain ⟨rfl, rfl⟩ := h
      exact .inr ⟨pre, post, rfl, by simp [Nat.add_assoc]⟩
  · rintro (⟨rfl, rfl⟩ | ⟨pre, post, rfl, rfl⟩)
    · exact ⟨[], bs, rfl, rfl⟩
    · exact ⟨b :: pre, post, rfl, by simp [Nat.add_assoc]⟩

theorem blockAt_append {a : Nat} {l₁ l₂ : List Blk} {x : Nat} {c : Blk} :
    BlockAt a (l₁ ++ l₂) x c ↔ BlockAt a l₁ x c ∨ BlockAt (a + span l₁) l₂ x c := by
  induction l₁ generalizing a with
  | nil => simp [BlockAt]
  | cons b l ih =>
    rw [List.cons_append, blockAt_cons, ih, blockAt_cons, span_cons, Nat.add_assoc, or_assoc]

theorem blockAt_here (a : Nat) (pre post : List Blk) (c : Blk) :
    BlockAt a (pre ++ c :: post) (a + span pre) c := ⟨pre, post, rfl, rfl⟩

/-- Replacing a block by one of the same size keeps every other block in its place. -/
theorem blockAt_replace {a z : Nat} {pre post : List Blk} {b b' c : Blk}
    (h : BlockAt a (pre ++ b :: post) z c) (hz : z ≠ a + span pre) (hsz : b'.size = b.size) :
    BlockAt a (pre ++ b' :: post) z c := by
  rcases blockAt_append.1 h with h | h
  · exact blockAt_append.2 (.inl h)
  · rcases blockAt_cons.1 h with ⟨rfl, -⟩ | h
    · exact absurd rfl hz
    · exact blockAt_append.2 (.inr (blockAt_cons.2 (.inr (hsz ▸ h))))

/-- Replacing blocks `m₁` by blocks `m₂` of the same span keeps every block outside them
in its place. -/
theorem blockAt_splice {a z : Nat} {pre m₁ m₂ post : List Blk} {c : Blk}
    (h : BlockAt a (pre ++ m₁ ++ post) z c) (hz : ∀ d, ¬ BlockAt (a + span pre) m₁ z d)
    (hsp : span m₂ = span m₁) : BlockAt a (pre ++ m₂ ++ post) z c := by
  rcases blockAt_append.1 h with h | h
  · rcases blockAt_append.1 h with h | h
    · exact blockAt_append.2 (.inl (blockAt_append.2 (.inl h)))
    · exact absurd h (hz c)
  · exact blockAt_append.2 (.inr (by simpa [hsp] using h))

/-- A block lies on one side of every boundary between blocks. -/
theorem blockAt_boundary {a : Nat} {l₁ l₂ : List Blk} {x : Nat} {c : Blk}
    (h : BlockAt a (l₁ ++ l₂) x c) : x + c.size ≤ a + span l₁ ∨ a + span l₁ ≤ x := by
  rcases blockAt_append.1 h with h | h
  · obtain ⟨pre, post, rfl, rfl⟩ := h; simp; omega
  · obtain ⟨pre, post, rfl, rfl⟩ := h; omega

theorem blockAt_mem {a : Nat} {bs : List Blk} {x : Nat} {c : Blk} (h : BlockAt a bs x c) :
    c ∈ bs := by
  obtain ⟨pre, post, rfl, -⟩ := h; simp

theorem blockAt_bound {a : Nat} {bs : List Blk} {x : Nat} {c : Blk} (h : BlockAt a bs x c) :
    a ≤ x ∧ x + c.size ≤ a + span bs := by
  obtain ⟨pre, post, rfl, rfl⟩ := h; simp; omega

/-- Every byte of the blocks lies in one of them. -/
theorem exists_blockAt {a : Nat} {bs : List Blk} {y : Nat} (h₁ : a ≤ y) (h₂ : y < a + span bs) :
    ∃ z c, BlockAt a bs z c ∧ z ≤ y ∧ y < z + c.size := by
  induction bs generalizing a with
  | nil => simp at h₂; omega
  | cons b bs ih =>
    by_cases hy : y < a + b.size
    · exact ⟨a, b, blockAt_cons.2 (.inl ⟨rfl, rfl⟩), h₁, hy⟩
    · obtain ⟨z, c, hz, h₃, h₄⟩ := ih (show a + b.size ≤ y by omega) (by simp at h₂; omega)
      exact ⟨z, c, blockAt_cons.2 (.inr hz), h₃, h₄⟩

/-- Two blocks at distinct addresses do not overlap; at one address they are one block. -/
theorem blockAt_apart {a : Nat} {bs : List Blk} {x y : Nat} {c d : Blk} (hok : SizesOk bs)
    (hx : BlockAt a bs x c) (hy : BlockAt a bs y d) :
    (x = y ∧ c = d) ∨ x + c.size ≤ y ∨ y + d.size ≤ x := by
  induction bs generalizing a with
  | nil => obtain ⟨_ | _, _, h, -⟩ := hx <;> simp at h
  | cons b bs ih =>
    obtain ⟨hb, hbs⟩ := sizesOk_cons.1 hok
    rw [blockAt_cons] at hx hy
    rcases hx with ⟨rfl, rfl⟩ | hx <;> rcases hy with ⟨rfl, rfl⟩ | hy
    · exact .inl ⟨rfl, rfl⟩
    · exact .inr (.inl (blockAt_bound hy).1)
    · exact .inr (.inr (blockAt_bound hx).1)
    · exact ih hbs hx hy

theorem blockAt_unique {a : Nat} {bs : List Blk} {x : Nat} {c d : Blk} (hok : SizesOk bs)
    (hx : BlockAt a bs x c) (hy : BlockAt a bs x d) : c = d := by
  have hc := (hok c (blockAt_mem hx)).2
  rcases blockAt_apart hok hx hy with h | h | h
  · exact h.2
  · omega
  · have := (hok d (blockAt_mem hy)).2; omega

/-- A header or footer word of the walk is one of block `c`'s own or lies outside it. -/
theorem hdrFtr_sep {a : Nat} {bs : List Blk} {x y : Nat} {c : Blk} (hok : SizesOk bs)
    (hx : BlockAt a bs x c) (hy : HdrFtr a bs y) :
    y + 8 ≤ x ∨ y = x ∨ (c.alloc = false ∧ 16 < c.size ∧ y = x + c.size - 8) ∨
      x + c.size ≤ y := by
  obtain ⟨pre, post, rfl, rfl⟩ := hx
  obtain ⟨hpre, hpost⟩ := sizesOk_append.1 hok
  rcases hdrFtr_append.1 hy with hy | hy
  · exact .inl (hdrFtr_bound hpre hy).2
  · rcases hy with rfl | hy | hy
    · exact .inr (.inl rfl)
    · exact .inr (.inr (.inl hy))
    · exact .inr (.inr (.inr (hdrFtr_bound (sizesOk_cons.1 hpost).2 hy).1))

/-- The walk's words avoid the body of any block: from 8 bytes past its header to its
footer, or to its end when it has none. -/
theorem tailWords_disjoint_body {a : Nat} {bs : List Blk} {x y z : Nat} {c : Blk}
    (hok : SizesOk bs) (hx : BlockAt a bs x c) (hz₁ : x + 8 ≤ z)
    (hz₂ : z + 8 ≤ x + c.size) (hft : c.alloc = false → 16 < c.size → z + 16 ≤ x + c.size)
    (hy : TailWords a bs y) : y + 8 ≤ z ∨ z + 8 ≤ y := by
  rcases hy with hy | rfl
  · rcases hdrFtr_sep hok hx hy with h | rfl | ⟨h1, h2, rfl⟩ | h
    · omega
    · omega
    · have := hft h1 h2; omega
    · omega
  · have := (blockAt_bound hx).2; omega

/-! ## Reading headers -/

section Read

variable {s : State} {a size : Nat} {al pa pm : Bool}
  (hw : loadWord s.mem a = pack size al pa pm) (h16 : size % 16 = 0) (hs : size < 2 ^ 64)
include hw h16 hs

theorem getSize_of_hdr : getSize s a = size := by rw [getSize, hw, extractSize_pack h16 hs]
theorem getAlloc_of_hdr : getAlloc s a = al := by rw [getAlloc, hw, extractAlloc_pack h16 hs]
theorem getPrevAlloc_of_hdr : getPrevAlloc s a = pa := by
  rw [getPrevAlloc, hw, extractPrevAlloc_pack h16 hs]
theorem getPrevMini_of_hdr : getPrevMini s a = pm := by
  rw [getPrevMini, hw, extractPrevMini_pack h16 hs]

end Read

/-! ## Writing headers -/

theorem writeBlock_eq (s : State) (x size : Nat) (al pa pm : Bool) (h16 : size % 16 = 0)
    (hs : size < 2 ^ 64) (hmin : 16 ≤ size) :
    writeBlock s x size al pa pm =
      { s with mem := if !al && size > 16 then
          storeWord (storeWord s.mem x (pack size al pa pm)) (x + size - 8) (pack size al pa pm)
        else storeWord s.mem x (pack size al pa pm) } := by
  have hg : getSize (s.setWord x (pack size al pa pm)) x = size :=
    @getSize_of_hdr (s.setWord x (pack size al pa pm)) x size al pa pm (by simp) h16 hs
  unfold writeBlock headerToFooter
  simp only [hg, minBlockSize_eq, show x + 8 + size - dsize = x + size - 8 by unfold dsize wsize; omega]
  split_ifs <;> rfl

/-- `write_block` leaves the block it writes readable, and bytes outside it alone. -/
theorem writeBlock_blkOk (s : State) (x size : Nat) (al pa pm : Bool) (h16 : size % 16 = 0)
    (hs : size < 2 ^ 64) (hmin : 16 ≤ size) :
    BlkOk (writeBlock s x size al pa pm).mem x (pa, pm) ⟨size, al⟩ := by
  rw [writeBlock_eq s x size al pa pm h16 hs hmin]
  cases al
  · by_cases h16' : size > 16
    · simp only [Bool.not_false, Bool.true_and, decide_eq_true h16', ite_true]
      exact ⟨by rw [loadWord_storeWord_of_disjoint _ _ (by omega), loadWord_storeWord_same],
        fun _ _ => loadWord_storeWord_same _ _ _⟩
    · simp only [Bool.not_false, Bool.true_and, decide_eq_false h16', Bool.false_eq_true, ite_false]
      exact ⟨loadWord_storeWord_same _ _ _, fun _ h => absurd h h16'⟩
  · simp only [Bool.not_true, Bool.false_and, Bool.false_eq_true, ite_false]
    exact ⟨loadWord_storeWord_same _ _ _, fun h => by simp at h⟩

theorem writeBlock_agree (s : State) (x size : Nat) (al pa pm : Bool) (h16 : size % 16 = 0)
    (hs : size < 2 ^ 64) (hmin : 16 ≤ size) :
    Agree (fun y => y < x ∨ x + size ≤ y) s.mem (writeBlock s x size al pa pm).mem := by
  rw [writeBlock_eq s x size al pa pm h16 hs hmin]
  split_ifs
  · exact (agree_storeWord _ _ fun y hy => by omega).trans (agree_storeWord _ _ fun y hy => by omega)
  · exact agree_storeWord _ _ fun y hy => by omega

@[simp] theorem writeBlock_lo (s : State) (x size : Nat) (al pa pm : Bool) :
    (writeBlock s x size al pa pm).lo = s.lo := by unfold writeBlock; split_ifs <;> rfl
@[simp] theorem writeBlock_brk (s : State) (x size : Nat) (al pa pm : Bool) :
    (writeBlock s x size al pa pm).brk = s.brk := by unfold writeBlock; split_ifs <;> rfl
@[simp] theorem writeBlock_heapStart (s : State) (x size : Nat) (al pa pm : Bool) :
    (writeBlock s x size al pa pm).heapStart = s.heapStart := by unfold writeBlock; split_ifs <;> rfl
@[simp] theorem writeBlock_segList (s : State) (x size : Nat) (al pa pm : Bool) :
    (writeBlock s x size al pa pm).segList = s.segList := by unfold writeBlock; split_ifs <;> rfl

/-- The size and allocation bit of the header at the start of `bs`; the epilogue's when
`bs` is empty. -/
def hdrOf : List Blk → Nat × Bool
  | [] => (0, true)
  | b :: _ => (b.size, b.alloc)

theorem hdTail_hdr {m : Mem} {a : Nat} {f : Bool × Bool} :
    ∀ {bs : List Blk}, HdTail m a f bs → loadWord m a = pack (hdrOf bs).1 (hdrOf bs).2 f.1 f.2
  | [], h => h
  | _ :: _, h => h.1

theorem hdrOf_size {bs : List Blk} (hok : SizesOk bs) (hfit : span bs < 2 ^ 64) :
    (hdrOf bs).1 % 16 = 0 ∧ (hdrOf bs).1 < 2 ^ 64 := by
  cases bs with
  | nil => simp [hdrOf]
  | cons c bs => exact ⟨(sizesOk_cons.1 hok).1.1, by simp [hdrOf] at hfit ⊢; omega⟩

/-- Rewriting the flags of the first header of a `HdTail`. -/
theorem hdTail_update {m : Mem} {a : Nat} {f f' : Bool × Bool} :
    ∀ {bs : List Blk}, SizesOk bs → HdTail m a f' bs →
      HdTail (storeWord m a (pack (hdrOf bs).1 (hdrOf bs).2 f.1 f.2)) a f bs
  | [], _, _ => loadWord_storeWord_same _ _ _
  | b :: bs, hok, h => by
    have hb := (sizesOk_cons.1 hok).1
    refine ⟨loadWord_storeWord_same _ _ _, tail_frame_outside (sizesOk_cons.1 hok).2
      (fun y h₁ _ => storeWord_apply_of_lt _ (by omega)) h.2⟩

end SegMalloc.Layout
