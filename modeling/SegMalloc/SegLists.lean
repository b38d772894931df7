import SegMalloc.Links

/-! The fifteen free lists as address sequences `l 0, ..., l 14`. `Linked s l` says that
the heads and the `next_mini` (list 0) or `free.prev`/`free.next` links (lists 1..14) of
`s` read back as the sequences; `Classes` is the size discipline of their nodes. The list
operations also need the nodes to be blocks: within the 64-bit address space and apart from
each other (`Layout`), since a link written into one block must not land in another block's
header or links. On such lists `insert_normal_or_mini` and `delete_normal_or_mini` push and remove one
node, write only the heads and the link words of the node and of its list neighbours, and
keep every condition. -/
namespace SegMalloc.SegLists
open Memory Header Block FreeList Links

/-- The heads and links in memory read back as the sequences `l i`, each ending in `NULL`. -/
structure Linked (s : State) (l : Nat → List Nat) : Prop where
  heads : ∀ i < segListNum, s.segList i = (l i).headD 0
  mini : MiniChain s.mem (l 0) 0
  links : ∀ i, 0 < i → FreeChain s.mem 0 (l i) 0

/-- The nodes: distinct, not `NULL`, 16-byte blocks on list 0 and blocks of more than
16 bytes of class `i` on list `i > 0`. -/
structure Classes (s : State) (l : Nat → List Nat) : Prop where
  nodup : ∀ i, (l i).Nodup
  nonzero : ∀ i, 0 ∉ l i
  mini_size : ∀ x ∈ l 0, getSize s x = 16
  normal_size : ∀ i, 0 < i → ∀ x ∈ l i, 16 < getSize s x ∧ getListIndex (getSize s x) = i

/-- Modelled from the spec: the list discipline in the words of the spec, the chains
and the size classes of their nodes. -/
structure ListShape (s : State) (l : Nat → List Nat) extends Linked s l, Classes s l : Prop

/-- The nodes are blocks within the 64-bit address space, apart from each other. -/
structure Layout (s : State) (l : Nat → List Nat) extends Classes s l : Prop where
  inside : ∀ i, ∀ x ∈ l i, x + getSize s x ≤ 2 ^ 64
  apart : ∀ i j x y, x ∈ l i → y ∈ l j → x ≠ y → x + getSize s x ≤ y ∨ y + getSize s y ≤ x

/-- The free lists of `s` are the sequences `l`, and their nodes are blocks of the arena. -/
structure Buckets (s : State) (l : Nat → List Nat) extends Linked s l, Layout s l : Prop

theorem mem_update {l : Nat → List Nat} {i j x : Nat} {l' : List Nat} :
    x ∈ Function.update l i l' j ↔ (j = i ∧ x ∈ l') ∨ (j ≠ i ∧ x ∈ l j) := by
  rw [Function.update_apply]
  split_ifs with h <;> simp [h]

/-! ## The layout -/

section LayoutFacts

variable {s : State} {l : Nat → List Nat} (hL : Layout s l)
include hL

/-- A node is a 16-byte block on list 0 and a block of at least 32 bytes of class `i`
on list `i > 0`. -/
theorem Layout.size_of_mem {i x : Nat} (hx : x ∈ l i) :
    (i = 0 ∧ getSize s x = 16) ∨ (0 < i ∧ 32 ≤ getSize s x ∧ getListIndex (getSize s x) = i) := by
  rcases Nat.eq_zero_or_pos i with rfl | hi
  · exact .inl ⟨rfl, hL.mini_size x hx⟩
  · obtain ⟨h16, hcls⟩ := hL.normal_size i hi x hx
    have := mt (getListIndex_eq_zero_iff (getSize s x)).2 (by omega)
    exact .inr ⟨hi, by omega, hcls⟩

/-- A node's links lie in its block. -/
theorem Layout.link_fit {i x : Nat} (hx : x ∈ l i) :
    16 ≤ getSize s x ∧ 8 + linkLen i ≤ getSize s x := by
  rcases hL.size_of_mem hx with ⟨rfl, h⟩ | ⟨hi, h, -⟩
  · simp [linkLen, h]
  · simp only [linkLen, hi.ne', ite_false]; omega

/-- A node lies on one list only: its size fixes the list. -/
theorem Layout.list_eq {i j x : Nat} (hi : x ∈ l i) (hj : x ∈ l j) : i = j := by
  rcases hL.size_of_mem hi with ⟨rfl, h⟩ | ⟨-, h, hc⟩ <;>
    rcases hL.size_of_mem hj with ⟨rfl, h'⟩ | ⟨-, h', hc'⟩ <;> omega

/-- Distinct nodes are 16 bytes apart, so their link words never meet. -/
theorem Layout.sep {i j x y : Nat} (hx : x ∈ l i) (hy : y ∈ l j) (hne : x ≠ y) :
    x + 16 ≤ y ∨ y + 16 ≤ x := by
  have := (hL.link_fit hx).1
  have := (hL.link_fit hy).1
  rcases hL.apart i j x y hx hy hne with h | h <;> omega

theorem Layout.spread (i : Nat) : Spread (l i) :=
  (hL.nodup i).pairwise_of_forall_ne fun _ hx _ hy hne => hL.sep hx hy hne

theorem Layout.lt {i x : Nat} (hx : x ∈ l i) : x < 2 ^ 64 := by
  have := hL.inside i x hx
  have := (hL.link_fit hx).1
  omega

theorem Layout.headD_lt {i : Nat} {t : List Nat} (ht : ∀ x ∈ t, x ∈ l i) : t.headD 0 < 2 ^ 64 := by
  cases t with
  | nil => norm_num
  | cons x t => exact hL.lt (ht x (List.mem_cons_self x t))

end LayoutFacts

/-- The layout over a state with the same node headers. -/
theorem Layout.frame {s s' : State} {l : Nat → List Nat} (hL : Layout s l)
    (hsz : ∀ i, ∀ x ∈ l i, getSize s' x = getSize s x) : Layout s' l where
  nodup := hL.nodup
  nonzero := hL.nonzero
  mini_size x hx := (hsz 0 x hx).trans (hL.mini_size x hx)
  normal_size i hi x hx := by rw [hsz i x hx]; exact hL.normal_size i hi x hx
  inside i x hx := by rw [hsz i x hx]; exact hL.inside i x hx
  apart i j x y hx hy hne := by rw [hsz i x hx, hsz j y hy]; exact hL.apart i j x y hx hy hne

/-- The layout with list `i` replaced by a sublist of it. -/
theorem Layout.sublist {s : State} {l : Nat → List Nat} (hL : Layout s l) {i : Nat}
    {l' : List Nat} (hsub : l'.Sublist (l i)) : Layout s (Function.update l i l') := by
  have hmem : ∀ j x, x ∈ Function.update l i l' j → x ∈ l j := fun j x hx => by
    rcases mem_update.1 hx with ⟨rfl, h⟩ | ⟨-, h⟩
    · exact hsub.subset h
    · exact h
  refine ⟨⟨fun j => ?_, fun j h => hL.nonzero j (hmem j 0 h), fun x hx => hL.mini_size x (hmem 0 x hx),
    fun j hj x hx => hL.normal_size j hj x (hmem j x hx)⟩, fun j x hx => hL.inside j x (hmem j x hx),
    fun j k x y hx hy => hL.apart j k x y (hmem j x hx) (hmem k y hy)⟩
  rw [Function.update_apply]
  split_ifs with h
  · exact hsub.nodup (h ▸ hL.nodup j)
  · exact hL.nodup j

/-- The layout with a block `b`, within the address space and apart from every node, pushed on
the list of its class. -/
theorem Layout.push {s : State} {l : Nat → List Nat} (hL : Layout s l) {b : Nat} (hb0 : b ≠ 0)
    (hend : b + getSize s b ≤ 2 ^ 64) (h16 : getSize s b % 16 = 0)
    (hmin : 16 ≤ getSize s b) (hap : ∀ j, ∀ y ∈ l j, b + getSize s b ≤ y ∨ y + getSize s y ≤ b) :
    Layout s (Function.update l (getListIndex (getSize s b))
      (b :: l (getListIndex (getSize s b)))) := by
  generalize hi : getListIndex (getSize s b) = i
  have hcls : i = 0 ↔ getSize s b = 16 := by rw [← hi, getListIndex_eq_zero_iff]; omega
  have hmem : ∀ j x, x ∈ Function.update l i (b :: l i) j → (j = i ∧ x = b) ∨ x ∈ l j :=
    fun j x hx => by
      rcases mem_update.1 hx with ⟨rfl, h⟩ | ⟨-, h⟩
      · rcases List.mem_cons.1 h with rfl | h
        · exact .inl ⟨rfl, rfl⟩
        · exact .inr h
      · exact .inr h
  have hnot : b ∉ l i := fun h => by have := hap i b h; omega
  refine ⟨⟨fun j => ?_, fun j h => ?_, fun x hx => ?_, fun j hj x hx => ?_⟩, fun j x hx => ?_,
    fun j k x y hx hy hne => ?_⟩
  · rw [Function.update_apply]
    split_ifs with h
    · exact List.nodup_cons.2 ⟨h ▸ hnot, h ▸ hL.nodup i⟩
    · exact hL.nodup j
  · rcases hmem j 0 h with ⟨-, h⟩ | h
    · exact hb0 h.symm
    · exact hL.nonzero j h
  · rcases hmem 0 x hx with ⟨h, rfl⟩ | h
    · exact hcls.1 h.symm
    · exact hL.mini_size x h
  · rcases hmem j x hx with ⟨rfl, rfl⟩ | h
    · exact ⟨by have := mt hcls.2 hj.ne'; omega, hi⟩
    · exact hL.normal_size j hj x h
  · rcases hmem j x hx with ⟨-, rfl⟩ | h
    · exact hend
    · exact hL.inside j x h
  · rcases hmem j x hx with ⟨-, rfl⟩ | hx' <;> rcases hmem k y hy with ⟨-, rfl⟩ | hy'
    · exact absurd rfl hne
    · exact hap k y hy'
    · exact (hap j x hx').symm
    · exact hL.apart j k x y hx' hy' hne

/-! ## Writes to the links -/

/-- Writes confined to the link words of `zs` keep the header of a block that starts at or
before each of them, or past its link words. -/
theorem getSize_of_offLinks {s s' : State} {k : Nat} {zs : List Nat} {y : Nat}
    (hag : Agree (OffLinks k zs) s.mem s'.mem) (hy : ∀ z ∈ zs, y ≤ z ∨ z + 8 + k ≤ y) :
    getSize s' y = getSize s y := by
  unfold getSize
  rw [loadWord_congr fun b h₁ h₂ => hag b fun z hz => by have := hy z hz; omega]

/-- Writes into the link words of nodes of list `i` keep every node's header and the links
of the other lists; once list `i` is relinked as `L i`, with head `hd`, the lists are `L`. -/
theorem Buckets.edit {s : State} {L : Nat → List Nat} {i hd : Nat} {zs : List Nat} {m' : Mem}
    (hL : Layout s L) (hheads : ∀ j < segListNum, j ≠ i → s.segList j = (L j).headD 0)
    (hmini : i ≠ 0 → MiniChain s.mem (L 0) 0)
    (hlinks : ∀ j, 0 < j → j ≠ i → FreeChain s.mem 0 (L j) 0)
    (hzs : ∀ z ∈ zs, z ∈ L i) (hag : Agree (OffLinks (linkLen i) zs) s.mem m')
    (hnew₀ : i = 0 → MiniChain m' (L 0) 0) (hnew : 0 < i → FreeChain m' 0 (L i) 0)
    (hhd : (L i).headD 0 = hd) :
    Buckets { s with mem := m', segList := Function.update s.segList i hd } L := by
  have hk : linkLen i ≤ 16 := by unfold linkLen; split_ifs <;> omega
  have hsep : ∀ j, j ≠ i → ∀ y ∈ L j, ∀ z ∈ zs, y + 16 ≤ z ∨ z + 16 ≤ y :=
    fun j hj y hy z hz => hL.sep hy (hzs z hz) fun e => hj (hL.list_eq hy (e ▸ hzs z hz))
  refine ⟨⟨fun j hj => ?_, ?_, fun j hj => ?_⟩, hL.frame fun j y hy =>
    getSize_of_offLinks hag fun z hz => ?_⟩
  · by_cases e : j = i
    · subst e; simpa using hhd.symm
    · simpa [Function.update_noteq e] using hheads j hj e
  · by_cases e : i = 0
    · exact hnew₀ e
    · exact miniChain_agree hag hk (hsep 0 (Ne.symm e)) (hmini e)
  · by_cases e : j = i
    · subst e; exact hnew hj
    · exact freeChain_agree hag hk (hsep j e) (hlinks j hj e)
  · by_cases e : y = z
    · exact .inl e.le
    · have := (hL.link_fit (hzs z hz)).2
      rcases hL.apart j i y z hy (hzs z hz) e with h | h <;> omega

/-! ## Two small heaps -/

/-- Three 16-byte blocks on the mini list, `1000 → 2000 → 3000`, in a state whose arena is
empty: the list discipline asks nothing of the arena. -/
def miniHeap : State where
  mem := storeWord (storeWord (storeWord (storeWord (storeWord (fun _ => 0)
    1000 (pack 16 false true false)) 1008 (UInt64.ofNat 2000))
    2000 (pack 16 false true false)) 2008 (UInt64.ofNat 3000))
    3000 (pack 16 false true false)
  lo := 0
  brk := 0
  heapStart := 0
  segList := fun i => if i = 0 then 1000 else 0

def miniLists (i : Nat) : List Nat := if i = 0 then [1000, 2000, 3000] else []

theorem mem_miniLists {i x : Nat} :
    x ∈ miniLists i ↔ i = 0 ∧ (x = 1000 ∨ x = 2000 ∨ x = 3000) := by
  unfold miniLists; split_ifs with h <;> simp [h]

theorem miniHeap_buckets : Buckets miniHeap miniLists := by
  have hsz : ∀ i x, x ∈ miniLists i → getSize miniHeap x = 16 := fun i x hx => by
    rcases (mem_miniLists.1 hx).2 with rfl | rfl | rfl <;> decide
  refine ⟨⟨by decide, ⟨by decide, by decide, by decide, trivial⟩, fun i hi => ?_⟩,
    ⟨⟨fun i => ?_, fun i h => ?_, fun x hx => hsz 0 x hx, fun i hi x hx => ?_⟩,
      fun i x hx => ?_, fun i j x y hx hy hne => ?_⟩⟩
  · unfold miniLists; rw [if_neg hi.ne']; trivial
  · unfold miniLists; split_ifs <;> decide
  · simp [mem_miniLists] at h
  · exact absurd (mem_miniLists.1 hx).1 hi.ne'
  · rw [hsz i x hx]
    rcases (mem_miniLists.1 hx).2 with rfl | rfl | rfl <;> decide
  · rw [hsz i x hx, hsz j y hy]
    rcases (mem_miniLists.1 hx).2 with rfl | rfl | rfl <;>
      rcases (mem_miniLists.1 hy).2 with rfl | rfl | rfl <;> omega

/-- A state in the list discipline as the spec words it, where the node 72 of list 1 lies
inside the free 48-byte block at 64, which is on no list. -/
def overlapHeap : State where
  mem := storeWord (storeWord (fun _ => 0) 64 (pack 48 false true false)) 72 (pack 32 false true false)
  lo := 16
  brk := 128
  heapStart := 24
  segList := fun i => if i = 1 then 72 else 0

def overlapLists (i : Nat) : List Nat := if i = 1 then [72] else []

theorem mem_overlapLists {i x : Nat} : x ∈ overlapLists i ↔ i = 1 ∧ x = 72 := by
  unfold overlapLists; split_ifs with h <;> simp [h]

/-! ## Insert and delete -/

section Ops

variable {s : State} {l : Nat → List Nat} (hB : Buckets s l)
include hB

/-- `insert_normal_or_mini` pushes a block `b`, within the address space and apart from every
node, on the list of its class, and writes only that head and the link words of `b` and of
the old head. -/
theorem insertNormalOrMini_buckets {b : Nat} (hb0 : b ≠ 0)
    (hend : b + getSize s b ≤ 2 ^ 64) (h16 : getSize s b % 16 = 0) (hmin : 16 ≤ getSize s b)
    (hap : ∀ j, ∀ y ∈ l j, b + getSize s b ≤ y ∨ y + getSize s y ≤ b) :
    ∃ m', insertNormalOrMini s b =
        { s with mem := m', segList := Function.update s.segList (getListIndex (getSize s b)) b } ∧
      Buckets { s with mem := m', segList := Function.update s.segList (getListIndex (getSize s b)) b }
        (Function.update l (getListIndex (getSize s b)) (b :: l (getListIndex (getSize s b)))) ∧
      Agree (OffLinks (linkLen (getListIndex (getSize s b)))
        (b :: (l (getListIndex (getSize s b))).take 1)) s.mem m' := by
  have hL := hB.push hb0 hend h16 hmin hap
  generalize hi : getListIndex (getSize s b) = i at hL ⊢
  have hsp : Spread (b :: l i) := spread_cons.2 ⟨fun y hy => by
    have := (hB.link_fit hy).1
    rcases hap i y hy with h | h <;> omega, hB.spread i⟩
  have hi15 : i < segListNum := by
    have := getListIndex_le (getSize s b); unfold segListNum; omega
  have hL' := fun j (e : j ≠ i) => Function.update_noteq e (b :: l i) l
  have hzs : ∀ z ∈ b :: (l i).take 1, z ∈ Function.update l i (b :: l i) i := fun z hz => by
    rw [Function.update_same]; exact ((List.take_sublist 1 (l i)).cons_cons b).subset hz
  have hhd : (Function.update l i (b :: l i) i).headD 0 = b := by rw [Function.update_same]; rfl
  have hheads : ∀ j < segListNum, j ≠ i → s.segList j = (Function.update l i (b :: l i) j).headD 0 :=
    fun j hj e => by rw [hL' j e]; exact hB.heads j hj
  have hlinks : ∀ j, 0 < j → j ≠ i → FreeChain s.mem 0 (Function.update l i (b :: l i) j) 0 :=
    fun j hj e => by rw [hL' j e]; exact hB.links j hj
  by_cases hm : getSize s b = 16
  · -- a 16-byte block goes on the mini list
    obtain rfl : i = 0 := hi ▸ (getListIndex_eq_zero_iff _).2 (by omega)
    obtain ⟨m', heq, hch, hag⟩ := insertToMiniFreeList_spec hb0 (hB.heads 0 (by decide)) hB.mini hsp
      (hB.headD_lt fun x hx => hx)
    have hag' : Agree (OffLinks (linkLen 0) (b :: (l 0).take 1)) s.mem m' :=
      hag.mono fun y hy z hz => hy z (by rw [List.mem_singleton.1 hz]; exact List.mem_cons_self _ _)
    refine ⟨m', by rw [insertNormalOrMini, if_pos (by rw [hm]; rfl), heq], ?_, hag'⟩
    exact Buckets.edit hL hheads (fun h => absurd rfl h) hlinks hzs hag'
      (fun _ => by rw [Function.update_same]; exact hch) (fun h => absurd h (lt_irrefl 0)) hhd
  · -- a larger block goes on the doubly linked list of its class
    have hi0 : i ≠ 0 := fun h => hm (by have := (getListIndex_eq_zero_iff _).1 (hi.trans h); omega)
    obtain ⟨m', heq, hch, hag⟩ := insertToFreeList_spec hb0 hi (hB.heads i hi15)
      (hB.links i (Nat.pos_of_ne_zero hi0)) hsp (hB.nonzero i) fun y hy => by
        rcases List.mem_cons.1 hy with rfl | hy
        · omega
        · exact hB.lt hy
    have hk : linkLen i = 16 := if_neg hi0
    refine ⟨m', by rw [insertNormalOrMini, if_neg (by rw [minBlockSize_eq]; exact hm), heq], ?_,
      hk ▸ hag⟩
    exact Buckets.edit hL hheads (fun _ => by rw [hL' 0 (Ne.symm hi0)]; exact hB.mini) hlinks hzs
      (hk ▸ hag) (fun h => absurd h hi0) (fun _ => by rw [Function.update_same]; exact hch) hhd

/-- `delete_normal_or_mini` removes a node `b` of list `i` and returns, the walk of the mini
list included; it keeps the order of the other nodes and writes only that head and the link
words of `b`'s list neighbours. -/
theorem deleteNormalOrMini_buckets {i b : Nat} {pre post : List Nat} (hl : l i = pre ++ b :: post) :
    ∃ m', deleteNormalOrMini s b =
        some { s with mem := m', segList := Function.update s.segList i ((pre ++ post).headD 0) } ∧
      Buckets { s with mem := m', segList := Function.update s.segList i ((pre ++ post).headD 0) }
        (Function.update l i (pre ++ post)) ∧
      Agree (OffLinks (linkLen i) (pre.getLast?.toList ++ post.take 1)) s.mem m' := by
  have hb : b ∈ l i := by rw [hl]; exact List.mem_append_right _ (List.mem_cons_self _ _)
  have hL := hB.sublist (show (pre ++ post).Sublist (l i) from
    hl ▸ (List.sublist_cons_self b post).append_left pre)
  have hb0 : b ≠ 0 := fun h => hB.nonzero i (h ▸ hb)
  have hsp : Spread (pre ++ b :: post) := hl ▸ hB.spread i
  have h0 : 0 ∉ pre ++ b :: post := hl ▸ hB.nonzero i
  have hmem : ∀ x ∈ pre ++ b :: post, x ∈ l i := fun x hx => hl ▸ hx
  have hpost : post.headD 0 < 2 ^ 64 :=
    hB.headD_lt fun x hx => hmem x (List.mem_append_right _ (List.mem_cons_of_mem _ hx))
  have hL' := fun j (e : j ≠ i) => Function.update_noteq e (pre ++ post) l
  have hzs : ∀ z ∈ pre.getLast?.toList ++ post.take 1, z ∈ Function.update l i (pre ++ post) i :=
    fun z hz => by
      rw [Function.update_same]
      rcases List.mem_append.1 hz with h | h
      · exact List.mem_append_left _ (List.mem_of_getLast?_eq_some (Option.mem_toList.1 h))
      · exact List.mem_append_right _ (List.mem_of_mem_take h)
  have hhd : (Function.update l i (pre ++ post) i).headD 0 = (pre ++ post).headD 0 := by
    rw [Function.update_same]
  have hheads : ∀ j < segListNum, j ≠ i → s.segList j = (Function.update l i (pre ++ post) j).headD 0 :=
    fun j hj e => by rw [hL' j e]; exact hB.heads j hj
  have hlinks : ∀ j, 0 < j → j ≠ i → FreeChain s.mem 0 (Function.update l i (pre ++ post) j) 0 :=
    fun j hj e => by rw [hL' j e]; exact hB.links j hj
  have hhead : s.segList i = (pre ++ b :: post).headD 0 := by
    rw [← hl]
    rcases hB.size_of_mem hb with ⟨rfl, -⟩ | ⟨-, -, hc⟩
    · exact hB.heads 0 (by decide)
    · exact hB.heads i (by have := getListIndex_le (getSize s b); unfold segListNum; omega)
  rcases hB.size_of_mem hb with ⟨rfl, hm⟩ | ⟨hi, hm, hc⟩
  · -- list 0: the walk finds the node before `b`
    obtain ⟨m', heq, hch, hag⟩ := deleteFromMiniFreeList_spec hb0 hhead (hl ▸ hB.mini) hsp
      (fun h => h0 (List.mem_append_left _ h)) hpost
    have hag' : Agree (OffLinks (linkLen 0) (pre.getLast?.toList ++ post.take 1)) s.mem m' :=
      hag.mono fun y hy z hz => hy z (List.mem_append_left _ hz)
    refine ⟨m', by rw [deleteNormalOrMini, if_pos (by rw [hm]; rfl), heq], ?_, hag'⟩
    exact Buckets.edit hL hheads (fun h => absurd rfl h) hlinks hzs hag'
      (fun _ => by rw [Function.update_same]; exact hch) (fun h => absurd h (lt_irrefl 0)) hhd
  · obtain ⟨m', heq, hch, hag⟩ := deleteFromFreeList_spec hb0 hc hhead (hl ▸ hB.links i hi) hsp h0
      fun x hx => hB.lt (hmem x hx)
    have hk : linkLen i = 16 := if_neg hi.ne'
    refine ⟨m', by rw [deleteNormalOrMini, if_neg (by rw [minBlockSize_eq]; omega), heq], ?_,
      hk ▸ hag⟩
    exact Buckets.edit hL hheads (fun _ => by rw [hL' 0 hi.ne]; exact hB.mini) hlinks hzs
      (hk ▸ hag) (fun h => absurd h hi.ne') (fun _ => by rw [Function.update_same]; exact hch) hhd

/-- On lists whose nodes are blocks apart from each other, `insert_normal_or_mini` of a block
apart from every node pushes it on the list of its class, and `delete_normal_or_mini` of a node returns with
the node removed and the others in order; both keep every condition of the lists and write only
the head and the link words of the node and of its list neighbours. -/
theorem buckets_insert_delete :
    (∀ b, b ≠ 0 → b + getSize s b ≤ 2 ^ 64 → getSize s b % 16 = 0 →
      16 ≤ getSize s b → (∀ j, ∀ y ∈ l j, b + getSize s b ≤ y ∨ y + getSize s y ≤ b) →
      ∃ m', insertNormalOrMini s b =
          { s with mem := m', segList := Function.update s.segList (getListIndex (getSize s b)) b } ∧
        Buckets
          { s with mem := m', segList := Function.update s.segList (getListIndex (getSize s b)) b }
          (Function.update l (getListIndex (getSize s b)) (b :: l (getListIndex (getSize s b)))) ∧
        Agree (OffLinks (linkLen (getListIndex (getSize s b)))
          (b :: (l (getListIndex (getSize s b))).take 1)) s.mem m') ∧
    (∀ i pre b post, l i = pre ++ b :: post →
      ∃ m', deleteNormalOrMini s b =
          some { s with mem := m', segList := Function.update s.segList i ((pre ++ post).headD 0) } ∧
        Buckets { s with mem := m', segList := Function.update s.segList i ((pre ++ post).headD 0) }
          (Function.update l i (pre ++ post)) ∧
        Agree (OffLinks (linkLen i) (pre.getLast?.toList ++ post.take 1)) s.mem m') :=
  ⟨fun _ hb0 hend h16 hmin hap => insertNormalOrMini_buckets hB hb0 hend h16 hmin hap,
    fun _ _ _ _ hl => deleteNormalOrMini_buckets hB hl⟩

end Ops

/-- Deleting the last node of the mini list `1000 → 2000 → 3000` walks to `2000` and unlinks
`3000`, with an empty arena. -/
theorem buckets_insert_delete_miniHeap : Buckets miniHeap miniLists ∧
    ∃ m', deleteNormalOrMini miniHeap 3000 =
        some { miniHeap with mem := m', segList := Function.update miniHeap.segList 0 1000 } ∧
      Buckets { miniHeap with mem := m', segList := Function.update miniHeap.segList 0 1000 }
        (Function.update miniLists 0 [1000, 2000]) := by
  obtain ⟨m', h, hB, -⟩ := (buckets_insert_delete miniHeap_buckets).2 0 [1000, 2000] 3000 [] rfl
  exact ⟨miniHeap_buckets, m', h, hB⟩

/-- Without the layout the law fails: the push of the block 64 writes its `free.prev` over the
header of the node 72 inside it and its `free.next` over that node's `free.prev`, which the
write of the old head's `free.prev` then sets to 64, so list 1 becomes the cycle 64, 64, ... -/
theorem insertNormalOrMini_overlap :
    ListShape overlapHeap overlapLists ∧ (∀ i, 64 ∉ overlapLists i) ∧
      getAlloc overlapHeap 64 = false ∧ getSize overlapHeap 64 = 48 ∧
      getListIndex (getSize overlapHeap 64) = 1 ∧
      freeNext (insertNormalOrMini overlapHeap 64) 64 = 64 ∧
      ¬ ListShape (insertNormalOrMini overlapHeap 64) (Function.update overlapLists 1 [64, 72]) := by
  have hnext : freeNext (insertNormalOrMini overlapHeap 64) 64 = 64 := by decide
  refine ⟨⟨⟨by decide, trivial, fun i _ => ?_⟩, ⟨fun i => ?_, fun i => by simp [mem_overlapLists],
    fun x hx => by simp [mem_overlapLists] at hx, fun i _ x hx => ?_⟩⟩,
    fun i => by simp [mem_overlapLists], by decide, by decide, by decide, hnext, fun h => ?_⟩
  · unfold overlapLists
    split_ifs
    · exact ⟨by decide, by decide, trivial⟩
    · trivial
  · unfold overlapLists; split_ifs <;> simp
  · obtain ⟨rfl, rfl⟩ := mem_overlapLists.1 hx
    decide
  · -- list 1 with 64 pushed would need the `free.next` of 64 to be 72
    exact absurd (hnext.symm.trans (h.links 1 one_pos).2.1) (by decide)

end SegMalloc.SegLists
